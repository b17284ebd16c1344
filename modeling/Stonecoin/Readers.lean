/-
Readers of a stream of symbols, for any symbols: a reader takes some symbols off the front,
or fails.

`Reads r w a` says that the reader takes exactly the word `w`, whatever follows it, and
returns `a`.  A reader built from others reads the words one after the other (`Reads.bind`),
and one that is run over a list reads the words of its elements (`Reads.mapM`).

`ReadsIf ok r w a` says in addition when this is so: the reader fails on the word, whatever
follows it, when `ok` does not hold.
-/
import Mathlib.Data.List.Basic

namespace Readers

universe u

variable {β α γ : Type u}

/-- A reader of symbols `β`. -/
abbrev Reader (β α : Type u) := StateT (List β) Option α

/-- The next symbol. -/
def next : Reader β β
  | [] => none
  | b :: s => some (b, s)

/-- The next `n` symbols. -/
def take (n : ℕ) : Reader β (List β) := fun s =>
  if n ≤ s.length then some (s.take n, s.drop n) else none

/-- A reader that is run `n` times. -/
def times (r : Reader β α) : ℕ → Reader β (List α)
  | 0 => pure []
  | n + 1 => do
    let a ← r
    let l ← times r n
    pure (a :: l)

variable {f : α → Reader β γ} {s : List β}

theorem bind_eq_some {r : Reader β α} {rest : List β} {c : γ} :
    (r >>= f) s = some (c, rest) ↔ ∃ a s', r s = some (a, s') ∧ f a s' = some (c, rest) := by
  show (r s).bind (fun p => f p.1 p.2) = _ ↔ _
  rw [Option.bind_eq_some_iff, Prod.exists]

theorem bind_of_none {r : Reader β α} (h : r s = none) :
    (r >>= f) s = none := by
  show (r s).bind (fun p => f p.1 p.2) = _
  rw [h]
  rfl

theorem bind_of_some {r : Reader β α} {s' : List β} {a : α}
    (h : r s = some (a, s')) : (r >>= f) s = f a s' := by
  show (r s).bind (fun p => f p.1 p.2) = _
  rw [h]
  rfl

/-- Where the first run ends, the others begin. -/
theorem map_snd_times_succ {r : Reader β α} {n : ℕ} {s' : List β} {a : α}
    (h : r s = some (a, s')) :
    (times r (n + 1) s).map Prod.snd = (times r n s').map Prod.snd := by
  rw [times, bind_of_some h]
  cases hl : times r n s' with
  | none => rw [bind_of_none hl]
  | some p =>
    rw [bind_of_some hl]
    rfl

theorem times_succ_eq_some {r : Reader β α} {n : ℕ} {rest : List β} {l : List α} :
    times r (n + 1) s = some (l, rest) ↔
      ∃ a s' l', r s = some (a, s') ∧ times r n s' = some (l', rest) ∧ l = a :: l' := by
  rw [times, bind_eq_some]
  refine exists_congr fun a => exists_congr fun s' => ?_
  rw [bind_eq_some]
  constructor
  · rintro ⟨hr, l', s'', hl', heq⟩
    obtain ⟨rfl, rfl⟩ := Prod.mk.inj (Option.some.inj heq)
    exact ⟨l', hr, hl', rfl⟩
  · rintro ⟨l', hr, hl', rfl⟩
    exact ⟨hr, l', rest, hl', rfl⟩

/-- The reader takes the word and returns the value, whatever follows. -/
def Reads (r : Reader β α) (w : List β) (a : α) : Prop :=
  ∀ rest, r (w ++ rest) = some (a, rest)

namespace Reads

theorem pure (a : α) : Reads (pure a : Reader β α) [] a := fun _ => rfl

theorem next (b : β) : Reads next [b] b := fun _ => rfl

theorem take (w : List β) : Reads (take w.length) w w := by
  intro rest
  rw [Readers.take, if_pos (by simp)]
  simp

/-- One reader after another. -/
theorem bind {r : Reader β α} {w w' : List β} {a : α} {c : γ}
    (h : Reads r w a) (h' : Reads (f a) w' c) : Reads (r >>= f) (w ++ w') c := by
  intro rest
  show (r (w ++ w' ++ rest)).bind (fun p => f p.1 p.2) = _
  rw [List.append_assoc, h (w' ++ rest)]
  exact h' rest

theorem map {r : Reader β α} {w : List β} {a : α} (f : α → γ) (h : Reads r w a) :
    Reads (f <$> r) w (f a) := by
  intro rest
  show (r (w ++ rest)).bind (fun p => some (f p.1, p.2)) = _
  rw [h rest]
  rfl

/-- A reader over the elements of a list reads the words of the elements. -/
theorem mapM {r : γ → Reader β α} {w : γ → List β} {g : γ → α} :
    ∀ {l : List γ}, (∀ c ∈ l, Reads (r c) (w c) (g c)) → Reads (l.mapM r) (l.flatMap w) (l.map g)
  | [], _ => by
    rw [List.mapM_nil]
    exact .pure []
  | c :: l, h => by
    rw [List.mapM_cons, List.flatMap_cons, List.map_cons]
    have hl : ∀ c' ∈ l, Reads (r c') (w c') (g c') := fun c' hc' => h c' (by simp [hc'])
    refine (h c (by simp)).bind ?_
    have hrest : Reads (l.mapM r >>= fun as => Pure.pure (g c :: as)) (l.flatMap w ++ [])
        (g c :: l.map g) := (mapM hl).bind (.pure _)
    rwa [List.append_nil] at hrest

/-- The last reader of a chain. -/
theorem bind_pure {r : Reader β α} {w : List β} {a : α} (f : α → γ) (h : Reads r w a) :
    Reads (r >>= fun a => Pure.pure (f a)) w (f a) := by
  have hbind := h.bind (f := fun a => Pure.pure (f a)) (.pure (f a))
  rwa [List.append_nil] at hbind

end Reads

/-- The reader takes the word and returns the value, or fails on the word. -/
structure ReadsIf (ok : Prop) (r : Reader β α) (w : List β) (a : α) : Prop where
  reads : ok → Reads r w a
  fails : ¬ ok → ∀ rest, r (w ++ rest) = none

theorem Reads.readsIf {r : Reader β α} {w : List β} {a : α} (h : Reads r w a) :
    ReadsIf True r w a :=
  ⟨fun _ => h, fun hok => absurd trivial hok⟩

namespace ReadsIf

variable {ok ok' : Prop} {r : Reader β α} {w w' : List β} {a : α} {c : γ}

theorem congr (h : ReadsIf ok r w a) (hiff : ok ↔ ok') : ReadsIf ok' r w a :=
  ⟨fun h' => h.reads (hiff.mpr h'), fun h' => h.fails (mt hiff.mp h')⟩

/-- One reader after another, both of which may fail. -/
theorem bind (h : ReadsIf ok r w a) (h' : ReadsIf ok' (f a) w' c) :
    ReadsIf (ok ∧ ok') (r >>= f) (w ++ w') c := by
  constructor
  · exact fun hok => (h.reads hok.1).bind (h'.reads hok.2)
  · intro hnot rest
    show (r (w ++ w' ++ rest)).bind (fun p => f p.1 p.2) = none
    rw [List.append_assoc]
    by_cases hok : ok
    · rw [h.reads hok (w' ++ rest)]
      exact h'.fails (fun hok' => hnot ⟨hok, hok'⟩) rest
    · rw [h.fails hok (w' ++ rest)]
      rfl

/-- A reader that does not fail comes first. -/
theorem after (h : Reads r w a) (h' : ReadsIf ok' (f a) w' c) :
    ReadsIf ok' (r >>= f) (w ++ w') c :=
  (h.readsIf.bind h').congr (iff_of_eq (true_and _))

/-- A reader that does not fail comes last. -/
theorem before (h : ReadsIf ok r w a) (h' : Reads (f a) w' c) :
    ReadsIf ok (r >>= f) (w ++ w') c :=
  (h.bind h'.readsIf).congr (iff_of_eq (and_true _))

theorem map (f : α → γ) (h : ReadsIf ok r w a) : ReadsIf ok (f <$> r) w (f a) := by
  refine ⟨fun hok => (h.reads hok).map f, fun hnot rest => ?_⟩
  show (r (w ++ rest)).bind (fun p => some (f p.1, p.2)) = none
  rw [h.fails hnot rest]
  rfl

/-- The last reader of a chain. -/
theorem bind_pure (f : α → γ) (h : ReadsIf ok r w a) :
    ReadsIf ok (r >>= fun a => Pure.pure (f a)) w (f a) := by
  have hbind := h.before (f := fun a => Pure.pure (f a)) (.pure (f a))
  rwa [List.append_nil] at hbind

/-- A reader that is run over and over reads the words of the elements of a list. -/
theorem replicate {w : γ → List β} {g : γ → α} {p : γ → Prop} : ∀ {l : List γ},
    (∀ c ∈ l, ReadsIf (p c) r (w c) (g c)) →
    ReadsIf (∀ c ∈ l, p c) ((List.replicate l.length PUnit.unit).mapM fun _ => r) (l.flatMap w)
      (l.map g) := by
  intro l
  induction l with
  | nil => exact fun _ => (Reads.pure []).readsIf.congr (by simp)
  | cons c l ih =>
    intro h
    rw [List.length_cons, List.replicate_succ, List.mapM_cons, List.flatMap_cons, List.map_cons]
    have hrest := (ih fun c' hc' => h c' (List.mem_cons_of_mem c hc')).before
      (f := fun as => Pure.pure (g c :: as)) (.pure (g c :: l.map g))
    rw [List.append_nil] at hrest
    exact ((h c List.mem_cons_self).bind hrest).congr List.forall_mem_cons.symm

end ReadsIf

end Readers
