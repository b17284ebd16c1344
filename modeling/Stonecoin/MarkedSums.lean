/-
Sums over the marked entries of a list.

Marks are a list of booleans beside the list; an entry without a mark does not count.  Setting
one mark changes the sum by one entry.

  * `markedSum_set_true`: a mark that is set adds its entry;
  * `markedSum_set_false`: a mark that is cleared takes it off;
  * `markedSum_eq`: the sum is that of the entries that are picked.
-/
import Mathlib.Algebra.BigOperators.Group.List.Basic
import Mathlib.Algebra.Group.Basic
import Mathlib.Data.List.Basic
import Mathlib.Tactic.Abel

namespace MarkedSums

variable {α M : Type*} [AddCommGroup M]

/-- The sum of the entries whose mark is set. -/
def markedSum : List M → List Bool → M
  | v :: vs, b :: bs => (if b then v else 0) + markedSum vs bs
  | _, _ => 0

/-- The entries whose mark is set. -/
def picked : List α → List Bool → List α
  | a :: as, b :: bs => if b then a :: picked as bs else picked as bs
  | _, _ => []

theorem markedSum_nil (bs : List Bool) : markedSum ([] : List M) bs = 0 := by
  cases bs <;> rfl

/-- A mark that is changed changes the sum by its entry. -/
theorem markedSum_set {b c : Bool} : ∀ {vs : List M} {bs : List Bool} {i : ℕ}, bs[i]? = some b →
    markedSum vs (bs.set i c) =
      markedSum vs bs - (if b then vs.getD i 0 else 0) + (if c then vs.getD i 0 else 0) := by
  intro vs
  induction vs with
  | nil =>
    intro bs i _
    rw [markedSum_nil, markedSum_nil]
    simp
  | cons v vs ih =>
    intro bs i h
    rcases bs with - | ⟨b', bs⟩
    · cases h
    · cases i with
      | zero =>
        obtain rfl := Option.some.inj h
        rw [List.set_cons_zero, markedSum, markedSum, List.getD_cons_zero]
        abel
      | succ i =>
        rw [List.getElem?_cons_succ] at h
        rw [List.set_cons_succ, markedSum, markedSum, ih h, List.getD_cons_succ]
        abel

theorem markedSum_set_true {vs : List M} {bs : List Bool} {i : ℕ} (h : bs[i]? = some false) :
    markedSum vs (bs.set i true) = markedSum vs bs + vs.getD i 0 := by
  simp [markedSum_set h]

theorem markedSum_set_false {vs : List M} {bs : List Bool} {i : ℕ} (h : bs[i]? = some true) :
    markedSum vs (bs.set i false) = markedSum vs bs - vs.getD i 0 := by
  simp [markedSum_set h]

theorem markedSum_replicate_false (vs : List M) : ∀ n : ℕ,
    markedSum vs (List.replicate n false) = 0 := by
  induction vs with
  | nil => exact fun n => markedSum_nil _
  | cons v vs ih =>
    intro n
    cases n with
    | zero => rfl
    | succ n =>
      rw [List.replicate_succ, markedSum, ih]
      simp

theorem markedSum_replicate_true (vs : List M) :
    markedSum vs (List.replicate vs.length true) = vs.sum := by
  induction vs with
  | nil => rfl
  | cons v vs ih =>
    rw [List.length_cons, List.replicate_succ, markedSum, ih, List.sum_cons]
    rfl

theorem markedSum_eq (f : α → M) : ∀ (as : List α) (bs : List Bool),
    markedSum (as.map f) bs = ((picked as bs).map f).sum := by
  intro as
  induction as with
  | nil =>
    intro bs
    rw [List.map_nil, markedSum_nil]
    cases bs <;> rfl
  | cons a as ih =>
    intro bs
    rcases bs with - | ⟨b, bs⟩
    · rfl
    · rw [List.map_cons, markedSum, picked, ih]
      cases b <;> simp

theorem picked_sublist : ∀ (as : List α) (bs : List Bool), (picked as bs).Sublist as := by
  intro as
  induction as with
  | nil =>
    intro bs
    cases bs <;> exact List.Sublist.refl []
  | cons a as ih =>
    intro bs
    rcases bs with - | ⟨b, bs⟩
    · exact List.nil_sublist _
    · rw [picked]
      split
      next => exact (ih bs).cons_cons a
      next => exact (ih bs).cons a

end MarkedSums
