/-
Tables of slots that hold keys, and maps whose entries are counted, for any keys.

`slots t k` are the slots of the table `t` that hold `k`, and `count p m` is the number of
entries of the map `m` with the property `p`.  Putting a key into an empty slot, clearing a
slot, inserting and erasing change both by at most one.

  * `card_slots_put`, `card_slots_clear`: the slots of a key after one change;
  * `count_insert`, `count_erase`: the entries with a property after one change;
  * `sum_card_slots_le`: the keys of a table have no more slots than there are.
-/
import Mathlib.Data.List.AList
import Mathlib.Data.Fintype.Card
import Mathlib.Algebra.BigOperators.Group.Finset.Basic

namespace SlotTables

/-! ### Slots -/

section Slots

variable {σ ι : Type*} [Fintype σ] [DecidableEq σ] [DecidableEq ι] {t : σ → Option ι} {x : σ}
  {k k' : ι}

/-- The slots that hold a key. -/
def slots (t : σ → Option ι) (k : ι) : Finset σ := Finset.univ.filter fun x => t x = some k

omit [DecidableEq σ] in
@[simp] theorem mem_slots : x ∈ slots t k ↔ t x = some k := by simp [slots]

theorem slots_clear (t : σ → Option ι) (x : σ) (k : ι) :
    slots (Function.update t x none) k = (slots t k).erase x := by
  ext y
  rcases eq_or_ne y x with rfl | hne
  · simp
  · simp [hne]

theorem card_slots_clear (h : t x = some k) :
    (slots (Function.update t x none) k).card + 1 = (slots t k).card := by
  rw [slots_clear]
  exact Finset.card_erase_add_one (mem_slots.mpr h)

theorem card_slots_put (h : t x = none) :
    (slots (Function.update t x (some k)) k).card = (slots t k).card + 1 := by
  have hput : slots (Function.update t x (some k)) k = insert x (slots t k) := by
    ext y
    rcases eq_or_ne y x with rfl | hne
    · simp
    · simp [hne]
  rw [hput, Finset.card_insert_of_notMem]
  rw [mem_slots, h]
  exact fun he => nomatch he

/-- Other keys keep their slots. -/
theorem slots_put_ne (h : t x = none) (hne : k ≠ k') :
    slots (Function.update t x (some k)) k' = slots t k' := by
  ext y
  rcases eq_or_ne y x with rfl | hxy
  · simp [h, hne]
  · simp [hxy]

/-- One more slot that holds the key, among those that are looked at. -/
theorem card_inter_insert (h : t x = some k) {done : Finset σ} (hout : x ∉ done) :
    (slots t k ∩ insert x done).card = (slots t k ∩ done).card + 1 := by
  rw [Finset.inter_insert_of_mem (mem_slots.mpr h), Finset.card_insert_of_notMem]
  exact fun hin => hout (Finset.mem_inter.mp hin).2

/-- A slot that holds another key. -/
theorem inter_insert_ne (h : t x ≠ some k) (done : Finset σ) :
    slots t k ∩ insert x done = slots t k ∩ done :=
  Finset.inter_insert_of_notMem fun hmem => h (mem_slots.mp hmem)

omit [DecidableEq σ] in
/-- A key is in a slot iff it has one. -/
theorem card_slots_pos : 0 < (slots t k).card ↔ ∃ x, t x = some k := by
  rw [Finset.card_pos]
  exact ⟨fun ⟨x, hx⟩ => ⟨x, mem_slots.mp hx⟩, fun ⟨x, hx⟩ => ⟨x, mem_slots.mpr hx⟩⟩

omit [DecidableEq σ] in
/-- Different keys have different slots. -/
theorem sum_card_slots_le (t : σ → Option ι) (s : Finset ι) :
    ∑ k ∈ s, (slots t k).card ≤ Fintype.card σ := by
  classical
  rw [← Finset.card_biUnion]
  · exact Finset.card_le_univ _
  · intro k _ k' _ hne
    apply Finset.disjoint_left.mpr
    intro x hx hx'
    rw [mem_slots] at hx hx'
    exact hne (Option.some.inj (hx.symm.trans hx'))

end Slots

/-! ### Counts -/

section Counts

variable {κ β : Type*} [DecidableEq κ] {m : AList fun _ : κ => β} {k : κ} {v w : β}

/-- How many entries have a property. -/
def count (p : β → Bool) (m : AList fun _ : κ => β) : ℕ := m.entries.countP fun e => p e.2

theorem perm_erase (h : m.lookup k = some v) :
    m.entries.Perm (⟨k, v⟩ :: (m.erase k).entries) := by
  have hkey : k ∈ m.entries.keys := AList.lookup_isSome.mp (by rw [h]; rfl)
  obtain ⟨v', l₁, l₂, -, hm, herase⟩ := List.exists_of_kerase hkey
  have hv : v' = v := by
    have hmem : (⟨k, v'⟩ : Σ _ : κ, β) ∈ m.entries := by rw [hm]; simp
    exact Option.some.inj ((AList.mem_lookup_iff.mpr hmem).symm.trans h)
  show m.entries.Perm (⟨k, v⟩ :: m.entries.kerase k)
  rw [herase, hm, hv]
  exact List.perm_middle

variable (p : β → Bool)

theorem count_erase (h : m.lookup k = some w) :
    count p (m.erase k) + (p w).toNat = count p m := by
  rw [count, count, (perm_erase h).countP_eq, List.countP_cons]
  cases p w with
  | true => rfl
  | false => rfl

/-- A new entry. -/
theorem count_insert_new (h : m.lookup k = none) :
    count p (m.insert k v) = count p m + (p v).toNat := by
  rw [count, count, AList.entries_insert_of_notMem (AList.lookup_eq_none.mp h), List.countP_cons]
  cases p v with
  | true => rfl
  | false => rfl

/-- An entry that is replaced. -/
theorem count_insert (h : m.lookup k = some w) :
    count p (m.insert k v) + (p w).toNat = count p m + (p v).toNat := by
  have herase := count_erase p h
  have hinsert : count p (m.insert k v) = count p (m.erase k) + (p v).toNat := by
    rw [count, count, AList.entries_insert, List.countP_cons]
    cases p v with
    | true => rfl
    | false => rfl
  omega

/-- An entry with the property is replaced by another one. -/
theorem count_insert_same (h : m.lookup k = some w) (hp : p v = p w) :
    count p (m.insert k v) = count p m := by
  have hins := count_insert p (v := v) h
  rw [hp] at hins
  exact Nat.add_right_cancel hins

omit [DecidableEq κ] in
/-- Every entry has the property or not. -/
theorem count_add_count_not (m : AList fun _ : κ => β) :
    count p m + count (fun v => !p v) m = m.entries.length := by
  rw [count, count, List.length_eq_countP_add_countP fun e : Σ _ : κ, β => p e.2]
  simp

end Counts

end SlotTables
