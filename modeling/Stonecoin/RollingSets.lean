/-
Sets that remember the last elements, for any elements, made of two sets that elements can only
be inserted into.

A set may report more than was inserted, but nothing less.  The two sets are cleared in turns,
every `n` insertions one of them, and the one that has not been cleared for longer is asked.

  * `Grows.roll`: an insertion keeps what the two sets still have to report;
  * `Grows.reports`: the set that is asked reports the last `n` elements.
-/
import Mathlib.Data.List.Basic
import Mathlib.Data.Nat.Notation

namespace RollingSets

universe u v

variable {σ : Type u} {α : Type v}

/-- A set that is only inserted into, until it is cleared; an insertion may fail. -/
structure Store (σ : Type u) (α : Type v) where
  insert : σ → α → Option σ
  clear : σ → σ
  Has : σ → α → Prop

/-- Insertions into a good set do not fail, and nothing is lost. -/
structure Store.Lawful (S : Store σ α) (Good : σ → Prop) : Prop where
  clear : ∀ {s}, Good s → Good (S.clear s)
  insert : ∀ {s} a, Good s → ∃ s', S.insert s a = some s' ∧ Good s' ∧ S.Has s' a ∧
    ∀ b, S.Has s b → S.Has s' b

/-- Two sets, and the insertions since the first one was cleared. -/
structure Rolling (σ : Type u) where
  count : ℕ
  first : σ
  second : σ

variable (S : Store σ α) (n : ℕ)

/-- One set is cleared when its turn has come, and both get the element. -/
def roll (r : Rolling σ) (a : α) : Option (Rolling σ) := do
  let first ← S.insert (if r.count = 0 then S.clear r.first else r.first) a
  let second ← S.insert (if r.count ≠ 0 ∧ r.count = n then S.clear r.second else r.second) a
  pure ⟨if r.count + 1 = 2 * n then 0 else r.count + 1, first, second⟩

/-- The set that is asked. -/
def asked (r : Rolling σ) : σ := if r.count < n then r.second else r.first

/-- What the sets have to report, the last element first. -/
structure Grows (Good : σ → Prop) (l : List α) (r : Rolling σ) : Prop where
  goodFirst : Good r.first
  goodSecond : Good r.second
  count : n ≠ 0 → r.count < 2 * n
  first : ∀ a ∈ l.take r.count, S.Has r.first a
  second : ∀ a ∈ l.take (if r.count < n then r.count + n else r.count - n), S.Has r.second a

variable {S n} {Good : σ → Prop}

/-- What an insertion adds to what is reported. -/
theorem forall_take_cons {p : α → Prop} {a : α} {l : List α} {k : ℕ} (ha : p a)
    (hl : ∀ b ∈ l.take (k - 1), p b) : ∀ b ∈ (a :: l).take k, p b := by
  intro b hb
  cases k with
  | zero => exact absurd hb (by simp)
  | succ k =>
    rw [List.take_succ_cons] at hb
    rcases List.mem_cons.mp hb with rfl | hb
    · exact ha
    · exact hl b hb

theorem Grows.roll (hS : S.Lawful Good) {l : List α} {r : Rolling σ} (h : Grows S n Good l r)
    (a : α) : ∃ r', roll S n r a = some r' ∧ Grows S n Good (a :: l) r' := by
  obtain ⟨first, hfirst, hgood, hown, hkeep⟩ := hS.insert a
    (show Good (if r.count = 0 then S.clear r.first else r.first) by
      split
      · exact hS.clear h.goodFirst
      · exact h.goodFirst)
  obtain ⟨second, hsecond, hgood', hown', hkeep'⟩ := hS.insert a
    (show Good (if r.count ≠ 0 ∧ r.count = n then S.clear r.second else r.second) by
      split
      · exact hS.clear h.goodSecond
      · exact h.goodSecond)
  refine ⟨_, by rw [RollingSets.roll, hfirst, Option.bind_eq_bind, Option.bind_some, hsecond]; rfl,
    hgood, hgood', fun hn => ?_, forall_take_cons hown ?_, forall_take_cons hown' ?_⟩
  · have hcount := h.count hn
    dsimp only
    split
    · omega
    · omega
  · -- what the first set had since it was cleared, it still has
    intro b hb
    have hmem : b ∈ l.take r.count := by
      refine List.take_subset_take_left l ?_ hb
      dsimp only
      split
      · omega
      · omega
    have hpos : r.count ≠ 0 := by
      rintro hzero
      rw [hzero] at hmem
      simp at hmem
    refine hkeep b ?_
    rw [if_neg hpos]
    exact h.first b hmem
  · intro b hb
    dsimp only at hb
    by_cases hclear : r.count ≠ 0 ∧ r.count = n
    · -- the second set has just been cleared
      have hzero : (if (if r.count + 1 = 2 * n then 0 else r.count + 1) < n then
          (if r.count + 1 = 2 * n then 0 else r.count + 1) + n
          else (if r.count + 1 = 2 * n then 0 else r.count + 1) - n) - 1 = 0 := by
        split_ifs
        · omega
        · omega
        · omega
        · omega
      rw [hzero] at hb
      simp at hb
    · refine hkeep' b ?_
      rw [if_neg hclear]
      refine h.second b (List.take_subset_take_left l ?_ hb)
      by_cases hn : n = 0
      · subst hn
        simp
      · have hcount := h.count hn
        split_ifs
        all_goals omega

/-- Two sets in which nothing is yet. -/
theorem Grows.start {first second : σ} (hfirst : Good first) (hsecond : Good second) :
    Grows S n Good ([] : List α) ⟨0, first, second⟩ where
  goodFirst := hfirst
  goodSecond := hsecond
  count _ := by
    dsimp only
    omega
  first := by simp
  second := by simp

theorem Grows.reports {l : List α} {r : Rolling σ} (h : Grows S n Good l r) :
    ∀ a ∈ l.take n, S.Has (asked n r) a := by
  intro a ha
  rw [asked]
  split
  next hlt =>
    refine h.second a (List.take_subset_take_left l ?_ ha)
    rw [if_pos hlt]
    exact Nat.le_add_left n r.count
  next hge => exact h.first a (List.take_subset_take_left l (Nat.not_lt.mp hge) ha)

end RollingSets
