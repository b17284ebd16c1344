/-
The upper median of a list over any linear order, and what happens to it when the list is
a window that slides along a sequence.

  * `le_median_iff`: a bound on the median counts the smaller elements;
  * `median_between`: where more than half of the elements are, the median is;
  * `median_le_slide`: a window that takes in an element above its median, and drops at
                        most its last one, does not lower the median.
-/
import Mathlib.Data.List.Sort
import Mathlib.Order.Basic

namespace Medians

variable {α : Type*} [LinearOrder α]

/-- The element in the middle of the sorted list, the upper one of two. -/
def median (d : α) (l : List α) : α := (l.insertionSort (· ≤ ·)).getD (l.length / 2) d

/-- In a sorted list, a place is bounded below by whatever has no more smaller elements
than stand before the place. -/
theorem le_getD_iff_of_sorted (d m : α) : ∀ {s : List α} {k : ℕ}, s.Pairwise (· ≤ ·) →
    k < s.length → (m ≤ s.getD k d ↔ s.countP (· < m) ≤ k) := by
  intro s
  induction s with
  | nil =>
    intro k _ hk
    exact absurd hk (Nat.not_lt_zero k)
  | cons x s ih =>
    intro k hs hk
    obtain ⟨hx, hs⟩ := List.pairwise_cons.mp hs
    -- nothing is smaller than `m` behind an element that is not
    have hall : m ≤ x → s.countP (· < m) = 0 := fun hm =>
      List.countP_eq_zero.mpr fun y hy => by simpa using hm.trans (hx y hy)
    rw [List.countP_cons]
    rcases le_or_gt m x with hm | hm
    · have hcount := hall hm
      simp only [hcount, Nat.zero_add, decide_eq_true_eq, if_neg hm.not_gt, Nat.zero_le, iff_true]
      cases k with
      | zero => exact hm
      | succ k =>
        show m ≤ s.getD k d
        apply (ih hs (Nat.lt_of_succ_lt_succ hk)).mpr
        rw [hcount]
        exact Nat.zero_le k
    · rw [decide_eq_true hm, if_pos rfl]
      cases k with
      | zero =>
        show m ≤ x ↔ _
        exact ⟨fun h => absurd h hm.not_ge, fun h => absurd h (Nat.not_succ_le_zero _)⟩
      | succ k =>
        show m ≤ s.getD k d ↔ _
        rw [ih hs (Nat.lt_of_succ_lt_succ hk), Nat.succ_le_succ_iff]

theorem le_median_iff (d m : α) {l : List α} (hl : l ≠ []) :
    m ≤ median d l ↔ l.countP (· < m) ≤ l.length / 2 := by
  have hpos : 0 < l.length := List.length_pos_iff.mpr hl
  rw [median, le_getD_iff_of_sorted d m (List.pairwise_insertionSort (· ≤ ·) l)
    (by rw [List.length_insertionSort]; omega),
    (List.perm_insertionSort (· ≤ ·) l).countP_eq]

/-- The median is below whatever all elements are below. -/
theorem median_lt (d m : α) {l : List α} (hl : l ≠ []) (h : ∀ x ∈ l, x < m) :
    median d l < m := by
  apply lt_of_not_ge
  intro hm
  have hcount := (le_median_iff d m hl).mp hm
  rw [List.countP_eq_length.mpr fun x hx => decide_eq_true (h x hx)] at hcount
  have hpos : 0 < l.length := List.length_pos_iff.mpr hl
  omega

theorem median_between (d a b : α) {l : List α}
    (h : l.length < 2 * l.countP fun x => a ≤ x ∧ x ≤ b) : a ≤ median d l ∧ median d l ≤ b := by
  have hl : l ≠ [] := by
    rintro rfl
    exact absurd h (Nat.not_lt_zero 0)
  constructor
  · -- those below `a` are not in the interval
    rw [le_median_iff d a hl]
    have hsplit := l.length_eq_countP_add_countP (p := fun x => x < a)
    have hin : (l.countP fun x => a ≤ x ∧ x ≤ b) ≤ l.countP fun x => ¬ x < a := by
      refine List.countP_mono_left fun x _ hx => ?_
      simp only [decide_eq_true_eq] at hx ⊢
      exact hx.1.not_gt
    have hsame : (l.countP fun x => ¬ decide (x < a) = true) = l.countP fun x => ¬ x < a := by
      simp
    omega
  · by_contra hb
    have hcount := (le_median_iff d (median d l) hl).mp le_rfl
    have hin : (l.countP fun x => a ≤ x ∧ x ≤ b) ≤ l.countP fun x => x < median d l := by
      refine List.countP_mono_left fun x _ hx => ?_
      simp only [decide_eq_true_eq] at hx ⊢
      exact hx.2.trans_lt (not_le.mp hb)
    omega

/-- **A sliding window.**  The window `w` of at most `2 k + 1` elements takes in `x`, and
keeps its first `2 k`. -/
theorem median_le_slide (d : α) {k : ℕ} {w : List α} {x : α} (hw : w ≠ [])
    (hlen : w.length ≤ 2 * k + 1) (hx : median d w ≤ x) :
    median d w ≤ median d (x :: w.take (2 * k)) := by
  have hm := (le_median_iff d (median d w) hw).mp le_rfl
  have hsub : (w.take (2 * k)).countP (· < median d w) ≤ w.countP (· < median d w) :=
    (List.take_sublist _ _).countP_le
  rw [le_median_iff d _ (List.cons_ne_nil _ _), List.countP_cons, List.length_cons,
    List.length_take, if_neg (by simpa using hx)]
  omega

end Medians
