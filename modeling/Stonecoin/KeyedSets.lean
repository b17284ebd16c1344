/-
Maps from keys to sets, for any keys and members.  A key whose set would be empty is not there.

  * `mem_foldl_add`, `mem_foldl_remove`: one member under several keys;
  * `NoneEmpty.foldl_remove`: no empty set stays.
-/
import Mathlib.Data.List.AList
import Mathlib.Data.Finset.Insert
import Mathlib.Data.Finset.Erase

namespace KeyedSets

variable {κ α : Type} [DecidableEq κ] [DecidableEq α]

/-- The set of a key, which is empty when the key is not there. -/
def get (m : AList fun _ : κ => Finset α) (k : κ) : Finset α := (m.lookup k).getD ∅

/-- A member comes into the set of a key. -/
def add (a : α) (m : AList fun _ : κ => Finset α) (k : κ) : AList fun _ : κ => Finset α :=
  m.insert k (insert a (get m k))

/-- A member goes out of the set of a key, and with the last one the key goes. -/
def remove (a : α) (m : AList fun _ : κ => Finset α) (k : κ) : AList fun _ : κ => Finset α :=
  match m.lookup k with
  | none => m
  | some s => if s.erase a = ∅ then m.erase k else m.insert k (s.erase a)

/-- No key has an empty set. -/
def NoneEmpty (m : AList fun _ : κ => Finset α) : Prop :=
  ∀ k s, m.lookup k = some s → s.Nonempty

variable {m : AList fun _ : κ => Finset α} {a b : α} {k j : κ}

omit [DecidableEq α] in
theorem mem_get : a ∈ get m k ↔ ∃ s, m.lookup k = some s ∧ a ∈ s := by
  rcases hk : m.lookup k with - | s
  · simp [get, hk]
  · simp [get, hk]

/-! ### One key -/

theorem get_add : get (add a m j) k = if k = j then insert a (get m k) else get m k := by
  by_cases hk : k = j
  · subst hk
    simp [get, add]
  · simp [get, add, hk, AList.lookup_insert_ne hk]

theorem get_remove : get (remove a m j) k = if k = j then (get m k).erase a else get m k := by
  rcases hj : m.lookup j with - | s
  · have hsame : remove a m j = m := by simp [remove, hj]
    rw [hsame]
    split_ifs with hk
    · subst hk
      simp [get, hj]
    · rfl
  · by_cases hk : k = j
    · subst hk
      by_cases hs : s.erase a = ∅
      · simp [get, remove, hj, hs]
      · simp [get, remove, hj, hs]
    · by_cases hs : s.erase a = ∅
      · simp [get, remove, hj, hs, hk, AList.lookup_erase_ne hk]
      · simp [get, remove, hj, hs, hk, AList.lookup_insert_ne hk]

theorem NoneEmpty.add (h : NoneEmpty m) (a : α) (j : κ) : NoneEmpty (add a m j) := by
  intro k s hs
  by_cases hk : k = j
  · subst hk
    rw [KeyedSets.add, AList.lookup_insert] at hs
    obtain rfl := Option.some.inj hs
    exact Finset.insert_nonempty a _
  · rw [KeyedSets.add, AList.lookup_insert_ne hk] at hs
    exact h k s hs

theorem NoneEmpty.remove (h : NoneEmpty m) (a : α) (j : κ) : NoneEmpty (remove a m j) := by
  intro k s hs
  rcases hj : m.lookup j with - | t
  · have hsame : KeyedSets.remove a m j = m := by simp [KeyedSets.remove, hj]
    rw [hsame] at hs
    exact h k s hs
  · by_cases ht : t.erase a = ∅
    · simp only [KeyedSets.remove, hj, if_pos ht] at hs
      by_cases hk : k = j
      · rw [hk, AList.lookup_erase] at hs
        cases hs
      · rw [AList.lookup_erase_ne hk] at hs
        exact h k s hs
    · simp only [KeyedSets.remove, hj, if_neg ht] at hs
      by_cases hk : k = j
      · rw [hk, AList.lookup_insert] at hs
        obtain rfl := Option.some.inj hs
        exact Finset.nonempty_iff_ne_empty.mpr ht
      · rw [AList.lookup_insert_ne hk] at hs
        exact h k s hs

/-! ### Several keys -/

theorem mem_foldl_add {ks : List κ} :
    b ∈ get (ks.foldl (add a) m) k ↔ b ∈ get m k ∨ k ∈ ks ∧ b = a := by
  induction ks generalizing m with
  | nil => simp
  | cons j ks ih =>
    rw [List.foldl_cons, ih, get_add]
    by_cases hk : k = j
    · simp [hk]
      tauto
    · simp [hk]

theorem mem_foldl_remove {ks : List κ} :
    b ∈ get (ks.foldl (remove a) m) k ↔ b ∈ get m k ∧ ¬ (k ∈ ks ∧ b = a) := by
  induction ks generalizing m with
  | nil => simp
  | cons j ks ih =>
    rw [List.foldl_cons, ih, get_remove]
    by_cases hk : k = j
    · simp [hk]
      tauto
    · simp [hk]

theorem NoneEmpty.foldl_add (h : NoneEmpty m) (a : α) (ks : List κ) :
    NoneEmpty (ks.foldl (KeyedSets.add a) m) := by
  induction ks generalizing m with
  | nil => exact h
  | cons j ks ih => exact ih (h.add a j)

theorem NoneEmpty.foldl_remove (h : NoneEmpty m) (a : α) (ks : List κ) :
    NoneEmpty (ks.foldl (KeyedSets.remove a) m) := by
  induction ks generalizing m with
  | nil => exact h
  | cons j ks ih => exact ih (h.remove a j)

end KeyedSets
