/-
Scans of a table that is sorted by its keys: seek a key, then read on as long as a test holds.

  * `mem_seek`, `mem_takeWhile`: what stands from a key on, and before the first failure;
  * `mem_scan`: a scan ends at the first entry that fails the test;
  * `range_eq_filter`: a scan over a range of the keys finds all of the range;
  * `prefix_of_between`: words between two with a common prefix have this prefix.
-/
import Mathlib.Data.List.TakeWhile
import Mathlib.Order.Basic

namespace KeyScans

section Tables

variable {κ ν : Type} [LT κ] [LE κ] [Std.IsLinearOrder κ] [Std.LawfulOrderLT κ]

/-- The entries in the order of their keys, each key once. -/
def Sorted (table : List (κ × ν)) : Prop := table.Pairwise fun e e' => e.1 < e'.1

variable [DecidableLT κ]

/-- The entries from a key on. -/
def seek (k : κ) (table : List (κ × ν)) : List (κ × ν) := table.dropWhile fun e => e.1 < k

omit [LE κ] [Std.IsLinearOrder κ] [Std.LawfulOrderLT κ] in
theorem Sorted.seek {table : List (κ × ν)} (h : Sorted table) (k : κ) : Sorted (seek k table) :=
  h.sublist (List.dropWhile_sublist _)

theorem mem_seek {k : κ} {e : κ × ν} : ∀ {table : List (κ × ν)}, Sorted table →
    (e ∈ seek k table ↔ e ∈ table ∧ k ≤ e.1) := by
  intro table
  induction table with
  | nil => exact fun _ => ⟨fun h => absurd h List.not_mem_nil, fun h => h.1⟩
  | cons e' table ih =>
    intro h
    obtain ⟨hhead, htail⟩ := List.pairwise_cons.mp h
    unfold KeyScans.seek
    rw [List.dropWhile_cons]
    by_cases hlt : e'.1 < k
    · -- the first entry is dropped, and it is not meant
      rw [if_pos (decide_eq_true hlt)]
      refine (ih htail).trans ⟨fun hm => ⟨List.mem_cons_of_mem _ hm.1, hm.2⟩, fun hm => ⟨?_, hm.2⟩⟩
      rcases List.mem_cons.mp hm.1 with rfl | hmem
      · exact absurd hm.2 (Std.not_le_of_gt hlt)
      · exact hmem
    · rw [if_neg (fun hd => hlt (of_decide_eq_true hd))]
      have hle : k ≤ e'.1 := Std.not_lt.mp hlt
      refine ⟨fun hm => ⟨hm, ?_⟩, fun hm => hm.1⟩
      rcases List.mem_cons.mp hm with rfl | hmem
      · exact hle
      · exact Std.le_of_lt (Std.lt_of_le_of_lt hle (hhead e hmem))

omit [DecidableLT κ] in
theorem mem_takeWhile {p : κ × ν → Bool} {e : κ × ν} : ∀ {table : List (κ × ν)}, Sorted table →
    (e ∈ table.takeWhile p ↔ e ∈ table ∧ ∀ e' ∈ table, e'.1 ≤ e.1 → p e' = true) := by
  intro table
  induction table with
  | nil => exact fun _ => ⟨fun h => absurd h List.not_mem_nil, fun h => h.1⟩
  | cons e' table ih =>
    intro h
    obtain ⟨hhead, htail⟩ := List.pairwise_cons.mp h
    have hfirst : ∀ a ∈ e' :: table, e'.1 ≤ a.1 := by
      intro a ha
      rcases List.mem_cons.mp ha with rfl | ha
      · exact Std.le_refl _
      · exact Std.le_of_lt (hhead a ha)
    rw [List.takeWhile_cons]
    by_cases hp : p e' = true
    · rw [if_pos hp]
      constructor
      · intro hm
        rcases List.mem_cons.mp hm with rfl | hm
        · refine ⟨List.mem_cons_self, fun a ha hle => ?_⟩
          rcases List.mem_cons.mp ha with rfl | ha
          · exact hp
          · exact absurd hle (Std.not_le_of_gt (hhead a ha))
        · obtain ⟨hmem, hall⟩ := (ih htail).mp hm
          refine ⟨List.mem_cons_of_mem _ hmem, fun a ha hle => ?_⟩
          rcases List.mem_cons.mp ha with rfl | ha
          · exact hp
          · exact hall a ha hle
      · rintro ⟨hm, hall⟩
        rcases List.mem_cons.mp hm with rfl | hm
        · exact List.mem_cons_self
        · exact List.mem_cons_of_mem _
            ((ih htail).mpr ⟨hm, fun a ha => hall a (List.mem_cons_of_mem _ ha)⟩)
    · rw [if_neg hp]
      refine ⟨fun hm => absurd hm List.not_mem_nil, fun hm => ?_⟩
      exact absurd (hm.2 e' List.mem_cons_self (hfirst e hm.1)) hp

theorem mem_scan {table : List (κ × ν)} (h : Sorted table) {k : κ} {p : κ × ν → Bool}
    {e : κ × ν} :
    e ∈ (seek k table).takeWhile p ↔
      e ∈ table ∧ k ≤ e.1 ∧ ∀ e' ∈ table, k ≤ e'.1 → e'.1 ≤ e.1 → p e' = true := by
  rw [mem_takeWhile (h.seek k), mem_seek h, and_assoc]
  refine and_congr_right fun _ => and_congr_right fun _ => ?_
  constructor
  · exact fun hall e' hmem hle => hall e' ((mem_seek h).mpr ⟨hmem, hle⟩)
  · exact fun hall e' hmem => hall e' ((mem_seek h).mp hmem).1 ((mem_seek h).mp hmem).2

end Tables

/-! ### Ranges -/

section Ranges

variable {α : Type} {before meant : α → Bool} {l : List α}

/-- A test that holds up to some place holds nowhere behind it. -/
theorem takeWhile_eq_filter (h : l.Pairwise fun a b => meant b = true → meant a = true) :
    l.takeWhile meant = l.filter meant := by
  induction l with
  | nil => rfl
  | cons a l ih =>
    obtain ⟨hhead, htail⟩ := List.pairwise_cons.mp h
    cases ha : meant a with
    | true => simp [ha, ih htail]
    | false =>
      have hnone : l.filter meant = [] := by
        apply List.filter_eq_nil_iff.mpr
        intro b hb hm
        rw [hhead b hb hm] at ha
        cases ha
      simp [ha, hnone]

theorem range_eq_filter {r : α → α → Prop} (hsorted : l.Pairwise r)
    (hbefore : ∀ a b, r a b → before b = true → before a = true)
    (hconvex : ∀ a b, r a b → before a = false → meant b = true → meant a = true)
    (hstart : ∀ a ∈ l, meant a = true → before a = false) :
    (l.dropWhile before).takeWhile meant = l.filter meant := by
  induction l with
  | nil => rfl
  | cons a l ih =>
    obtain ⟨hhead, htail⟩ := List.pairwise_cons.mp hsorted
    cases ha : before a with
    | true =>
      have hm : meant a = false := by
        cases hm : meant a with
        | false => rfl
        | true => exact absurd (ha.symm.trans (hstart a List.mem_cons_self hm)) (by simp)
      rw [List.dropWhile_cons_of_pos ha, List.filter_cons_of_neg (by simp [hm])]
      exact ih htail fun b hb => hstart b (List.mem_cons_of_mem a hb)
    | false =>
      -- nothing is dropped any more
      rw [List.dropWhile_cons_of_neg (by simp [ha])]
      have hrest : ∀ x ∈ a :: l, before x = false := by
        intro x hx
        rcases List.mem_cons.mp hx with rfl | hx
        · exact ha
        · cases hxb : before x with
          | false => rfl
          | true => exact absurd (ha.symm.trans (hbefore a x (hhead x hx) hxb)) (by simp)
      apply takeWhile_eq_filter
      exact hsorted.imp_of_mem fun {x y} hx _ hxy => hconvex x y hxy (hrest x hx)

end Ranges

/-! ### Words -/

section Words

variable {α : Type} [LT α] [LE α] [Std.IsLinearOrder α] [Std.LawfulOrderLT α]

/-- Words between two with a common prefix have this prefix. -/
theorem prefix_of_between {a b : List α} : ∀ {p e : List α}, p ++ a ≤ e → e ≤ p ++ b → p <+: e := by
  intro p
  induction p with
  | nil => exact fun _ _ => List.nil_prefix
  | cons x p ih =>
    intro e hle hle'
    cases e with
    | nil => exact absurd (List.nil_lt_cons x (p ++ a)) hle
    | cons y e =>
      rw [List.cons_append, List.cons_le_cons_iff] at hle hle'
      rcases hle with hlt | ⟨rfl, hrest⟩
      · -- the first letters would be in both orders
        rcases hle' with hlt' | ⟨rfl, -⟩
        · exact absurd (Std.le_of_lt hlt) (Std.not_le_of_gt hlt')
        · exact absurd hlt Std.lt_irrefl
      · rcases hle' with hlt' | ⟨-, hrest'⟩
        · exact absurd hlt' Std.lt_irrefl
        · exact List.cons_prefix_cons.mpr ⟨rfl, ih hrest hrest'⟩

theorem append_le_append_iff {a b : List α} : ∀ {p : List α}, p ++ a ≤ p ++ b ↔ a ≤ b := by
  intro p
  induction p with
  | nil => exact Iff.rfl
  | cons x p ih =>
    rw [List.cons_append, List.cons_append, List.cons_le_cons_iff, ih]
    constructor
    · rintro (hlt | h)
      · exact absurd hlt Std.lt_irrefl
      · exact h.2
    · exact fun h => Or.inr ⟨rfl, h⟩

end Words

end KeyScans
