/-
Loops that can return from their middle, and that need not end.

A pass of a loop leads to the next pass or to a result.

  * `Ends.post`: what the passes keep holds when the loop ends;
  * `ends_of_measure`: a loop ends whose passes make something smaller;
  * `ends_of_lex`: the same with two sizes, one after the other;
  * `ends_iff`, `each_iff`: when there is one result, and what it is;
  * `not_ends`: one whose passes always lead to another pass does not;
  * `Each.keep`: what the passes over a list keep;
  * `foldl_range`: what the passes of a loop that counts keep.
-/
import Mathlib.Data.Finset.Lattice.Lemmas

namespace Loops

variable {σ ρ : Type*} {pass : σ → σ ⊕ ρ} {s : σ} {r : ρ}

/-- The loop ends with a result. -/
inductive Ends (pass : σ → σ ⊕ ρ) : σ → ρ → Prop
  | stop {s : σ} {r : ρ} : pass s = .inr r → Ends pass s r
  | next {s s' : σ} {r : ρ} : pass s = .inl s' → Ends pass s' r → Ends pass s r

theorem Ends.post {I : σ → Prop} {Q : ρ → Prop} (hnext : ∀ s s', I s → pass s = .inl s' → I s')
    (hstop : ∀ s r, I s → pass s = .inr r → Q r) (h : Ends pass s r) (hs : I s) : Q r := by
  induction h with
  | stop hpass => exact hstop _ _ hs hpass
  | next hpass _ ih => exact ih (hnext _ _ hs hpass)

/-- There is one result. -/
theorem Ends.unique {r' : ρ} (h : Ends pass s r) (h' : Ends pass s r') : r = r' := by
  induction h with
  | stop hpass =>
    cases h' with
    | stop hpass' => exact Sum.inr.inj (hpass.symm.trans hpass')
    | next hpass' _ => exact absurd (hpass.symm.trans hpass') (by simp)
  | next hpass _ ih =>
    cases h' with
    | stop hpass' => exact absurd (hpass.symm.trans hpass') (by simp)
    | next hpass' hrest =>
      obtain rfl := Sum.inl.inj (hpass.symm.trans hpass')
      exact ih hrest

theorem ends_of_measure {I : σ → Prop} (size : σ → ℕ)
    (hnext : ∀ s s', I s → pass s = .inl s' → I s' ∧ size s' < size s) (hs : I s) :
    ∃ r, Ends pass s r := by
  -- induction on the size of the state
  induction hn : size s using Nat.strongRecOn generalizing s with
  | ind n ih =>
    cases hpass : pass s with
    | inr r => exact ⟨r, .stop hpass⟩
    | inl s' =>
      obtain ⟨hs', hlt⟩ := hnext s s' hs hpass
      obtain ⟨r, hr⟩ := ih (size s') (hn ▸ hlt) hs' rfl
      exact ⟨r, .next hpass hr⟩

/-- A loop that ends, always with the same result. -/
theorem ends_iff {I : σ → Prop} (size : σ → ℕ) {r₀ : ρ}
    (hnext : ∀ s s', I s → pass s = .inl s' → I s' ∧ size s' < size s)
    (hstop : ∀ s r, I s → pass s = .inr r → r = r₀) (hs : I s) : Ends pass s r ↔ r = r₀ := by
  have hpost : ∀ r, Ends pass s r → r = r₀ := fun r h =>
    h.post (Q := fun r => r = r₀) (fun s s' hI hpass => (hnext s s' hI hpass).1) hstop hs
  refine ⟨hpost r, ?_⟩
  rintro rfl
  obtain ⟨r', hr'⟩ := ends_of_measure size hnext hs
  exact hpost r' hr' ▸ hr'

/-- **The rule of termination**, with two sizes: the second one may grow when the first one gets
smaller. -/
theorem ends_of_lex {I : σ → Prop} (outer inner : σ → ℕ)
    (hnext : ∀ s s', I s → pass s = .inl s' →
      I s' ∧ (outer s' < outer s ∨ outer s' = outer s ∧ inner s' < inner s)) (hs : I s) :
    ∃ r, Ends pass s r := by
  induction ho : outer s using Nat.strongRecOn generalizing s with
  | ind n ih =>
    -- as long as the first size stays, the second one is the measure
    induction hi : inner s using Nat.strongRecOn generalizing s with
    | ind m ihInner =>
      cases hpass : pass s with
      | inr r => exact ⟨r, .stop hpass⟩
      | inl s' =>
        obtain ⟨hs', hless | ⟨hsame, hless⟩⟩ := hnext s s' hs hpass
        · obtain ⟨r, hr⟩ := ih (outer s') (ho ▸ hless) hs' rfl
          exact ⟨r, .next hpass hr⟩
        · obtain ⟨r, hr⟩ := ihInner (inner s') (hi ▸ hless) hs' (hsame.trans ho) rfl
          exact ⟨r, .next hpass hr⟩

theorem not_ends {I : σ → Prop} (hnext : ∀ s, I s → ∃ s', pass s = .inl s' ∧ I s') (hs : I s) :
    ¬ Ends pass s r := by
  intro h
  refine h.post (Q := fun _ => False) (fun s s' hI hpass => ?_) (fun s r hI hpass => ?_) hs
  · obtain ⟨s₁, hpass₁, hI₁⟩ := hnext s hI
    obtain rfl := Sum.inl.inj (hpass.symm.trans hpass₁)
    exact hI₁
  · obtain ⟨s₁, hpass₁, -⟩ := hnext s hI
    exact absurd (hpass.symm.trans hpass₁) (by simp)

/-! ### Loops over lists -/

section Lists

variable {α : Type*} {step : α → σ → σ → Prop} {l : List α} {s' : σ}

/-- A loop over a list, whose passes are steps of a relation. -/
def Each (step : α → σ → σ → Prop) : List α → σ → σ → Prop
  | [], s, s' => s' = s
  | a :: l, s, s' => ∃ s₁, step a s s₁ ∧ Each step l s₁ s'

theorem Each.keep {I : σ → Prop} (hstep : ∀ a s s', step a s s' → I s → I s')
    (h : Each step l s s') (hs : I s) : I s' := by
  induction l generalizing s with
  | nil => exact h ▸ hs
  | cons a l ih =>
    obtain ⟨s₁, hfirst, hrest⟩ := h
    exact ih hrest (hstep a s s₁ hfirst hs)

theorem foldlM_keep {I : σ → Prop} {f : σ → α → Option σ}
    (hstep : ∀ s a s', f s a = some s' → I s → I s') (h : l.foldlM f s = some s') (hs : I s) :
    I s' := by
  induction l generalizing s with
  | nil => exact Option.some.inj h ▸ hs
  | cons a l ih =>
    rw [List.foldlM_cons, Option.bind_eq_bind, Option.bind_eq_some_iff] at h
    obtain ⟨s₁, hfirst, hrest⟩ := h
    exact ih hrest (hstep s a s₁ hfirst hs)

/-- Passes that have one result each, where `I` holds of what has been visited. -/
theorem each_iff [DecidableEq α] {P : α → Prop} {I : Finset α → σ → Prop}
    {R : α → σ → σ → Prop}
    (hstep : ∀ a done s, P a → a ∉ done → I done s →
      ∃ s', I (insert a done) s' ∧ ∀ t, R a s t ↔ t = s') :
    ∀ {l : List α} {done : Finset α} {s : σ}, l.Nodup → (∀ a ∈ l, P a ∧ a ∉ done) → I done s →
      ∃ s', I (done ∪ l.toFinset) s' ∧ ∀ t, Each R l s t ↔ t = s' := by
  intro l
  induction l with
  | nil => exact fun {done s} _ _ hs => ⟨s, by simpa using hs, fun _ => Iff.rfl⟩
  | cons a l ih =>
    intro done s hnodup hl hs
    obtain ⟨ha, hnodup⟩ := List.nodup_cons.mp hnodup
    obtain ⟨hP, hnew⟩ := hl a List.mem_cons_self
    obtain ⟨s₁, hs₁, hfirst⟩ := hstep a done s hP hnew hs
    obtain ⟨s', hs', hrest⟩ := @ih (insert a done) s₁ hnodup (fun b hb => by
      obtain ⟨hPb, hb'⟩ := hl b (List.mem_cons_of_mem a hb)
      have hne : b ≠ a := fun heq => ha (heq ▸ hb)
      exact ⟨hPb, by simp [hne, hb']⟩) hs₁
    refine ⟨s', ?_, fun t => ?_⟩
    · rw [List.toFinset_cons, Finset.union_insert, ← Finset.insert_union]
      exact hs'
    · simp only [Each, hfirst, exists_eq_left, hrest]

end Lists

theorem foldl_range {P : ℕ → σ → Prop} {f : σ → ℕ → σ} {n : ℕ} (h0 : P 0 s)
    (hstep : ∀ i < n, ∀ s, P i s → P (i + 1) (f s i)) : P n ((List.range n).foldl f s) := by
  induction n with
  | zero => exact h0
  | succ n ih =>
    rw [List.range_succ, List.foldl_append]
    exact hstep n (Nat.lt_succ_self n) _ (ih fun i hi => hstep i (Nat.lt_succ_of_lt hi))

end Loops
