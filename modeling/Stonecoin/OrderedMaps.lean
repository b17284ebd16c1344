/-
Maps whose entries are visited in the order of their keys, for any keys and values.

`sortedEntries le m` are the entries in that order, and `ofEntries` builds a map of entries
that come one after the other.

  * `lookup_rebuilt`, `countP_rebuilt`: a map that is built of the sorted entries of another
        finds and counts the same;
  * `lookup_foldl_insert`, `foldlM_modify`, `map_lookup_foldlM_modify`: values that are changed
        key after key;
  * `size_insert`, `size_erase`: the number of the entries.
-/
import Mathlib.Data.List.AList
import Mathlib.Data.List.Sort

namespace OrderedMaps

variable {κ β : Type} [DecidableEq κ] (le : κ → κ → Prop) [DecidableRel le]

/-- An entry that is there is left alone. -/
def insertAbsent (m : AList fun _ : κ => β) (item : Σ _ : κ, β) : AList fun _ : κ => β :=
  if item.1 ∈ m then m else m.insert item.1 item.2

/-- A map of entries that come one after the other. -/
def ofEntries (items : List (Σ _ : κ, β)) : AList fun _ : κ => β := items.foldl insertAbsent ∅

/-- The entries in the order of their keys. -/
def sortedEntries (m : AList fun _ : κ => β) : List (Σ _ : κ, β) :=
  m.entries.insertionSort fun p q => le p.1 q.1

/-- The map that is read, when the values are read as `g` of them. -/
def rebuilt (g : β → β) (m : AList fun _ : κ => β) : AList fun _ : κ => β :=
  ofEntries ((sortedEntries le m).map fun p => ⟨p.1, g p.2⟩)

theorem entries_foldl_insertAbsent : ∀ (items : List (Σ _ : κ, β)) (m : AList fun _ : κ => β),
    items.NodupKeys → (∀ p ∈ items, p.1 ∉ m) →
    (items.foldl insertAbsent m).entries = items.reverse ++ m.entries := by
  intro items
  induction items with
  | nil => exact fun _ _ _ => rfl
  | cons p items ih =>
    intro m hnodup hnew
    have hp : p.1 ∉ m := hnew p List.mem_cons_self
    obtain ⟨hkey, hnodup'⟩ := List.nodupKeys_cons.mp hnodup
    rw [List.foldl_cons, insertAbsent, if_neg hp, ih _ hnodup', AList.entries_insert_of_notMem hp,
      List.reverse_cons, List.append_assoc]
    · rfl
    · intro q hq hmem
      rcases (AList.mem_insert m).mp hmem with he | hmem
      · exact hkey (List.mem_map.mpr ⟨q, hq, he⟩)
      · exact hnew q (List.mem_cons_of_mem p hq) hmem

omit [DecidableEq κ] in
theorem perm_sortedEntries (m : AList fun _ : κ => β) : (sortedEntries le m).Perm m.entries :=
  List.perm_insertionSort _ _

/-- The entries of a map that is read. -/
theorem entries_rebuilt (g : β → β) (m : AList fun _ : κ => β) :
    (rebuilt le g m).entries.Perm (m.entries.map fun p => ⟨p.1, g p.2⟩) := by
  have hperm := (perm_sortedEntries le m).map fun p => (⟨p.1, g p.2⟩ : Σ _ : κ, β)
  have hnodup : (m.entries.map fun p => (⟨p.1, g p.2⟩ : Σ _ : κ, β)).NodupKeys := by
    rw [List.NodupKeys, List.keys, List.map_map]
    exact m.nodupKeys
  have hentries := entries_foldl_insertAbsent _ ∅ ((List.perm_nodupKeys hperm).mpr hnodup)
    fun p _ => AList.notMem_empty p.1
  rw [rebuilt, ofEntries, hentries, AList.empty_entries, List.append_nil]
  exact (List.reverse_perm _).trans hperm

theorem lookup_rebuilt (g : β → β) (m : AList fun _ : κ => β) (k : κ) :
    (rebuilt le g m).lookup k = (m.lookup k).map g := by
  apply Option.ext
  intro v
  have hmem : (rebuilt le g m).lookup k = some v ↔
      (⟨k, v⟩ : Σ _ : κ, β) ∈ m.entries.map fun p => ⟨p.1, g p.2⟩ :=
    AList.mem_lookup_iff.trans (entries_rebuilt le g m).mem_iff
  rw [hmem, List.mem_map, Option.map_eq_some_iff]
  constructor
  · rintro ⟨⟨k', w⟩, hitem, he⟩
    cases he
    exact ⟨w, AList.mem_lookup_iff.mpr hitem, rfl⟩
  · rintro ⟨w, hw, rfl⟩
    exact ⟨⟨k, w⟩, AList.mem_lookup_iff.mp hw, rfl⟩

theorem countP_rebuilt (g : β → β) (m : AList fun _ : κ => β) (p : (Σ _ : κ, β) → Bool) :
    (rebuilt le g m).entries.countP p = m.entries.countP fun q => p ⟨q.1, g q.2⟩ := by
  rw [(entries_rebuilt le g m).countP_eq, List.countP_map]
  rfl

/-! ### Changes key after key -/

variable {ks : List κ}

/-- Each of the keys gets a value that depends on the one it has. -/
theorem lookup_foldl_insert (f : κ → Option β → β) (hnodup : ks.Nodup)
    (m : AList fun _ : κ => β) (k : κ) :
    (ks.foldl (fun m k => m.insert k (f k (m.lookup k))) m).lookup k =
      if k ∈ ks then some (f k (m.lookup k)) else m.lookup k := by
  induction ks generalizing m with
  | nil => simp
  | cons a ks ih =>
    obtain ⟨ha, hnodup'⟩ := List.nodup_cons.mp hnodup
    rw [List.foldl_cons, ih hnodup']
    by_cases hk : k = a
    · subst hk
      simp [ha]
    · simp [AList.lookup_insert_ne hk, hk]

/-- The value of a key is changed, where there is one. -/
def modify (f : β → Option β) (m : AList fun _ : κ => β) (k : κ) :
    Option (AList fun _ : κ => β) :=
  (m.lookup k).bind fun b => (f b).map fun b => m.insert k b

theorem modify_eq {f : β → Option β} {m : AList fun _ : κ => β} {k : κ} {b b' : β}
    (hb : m.lookup k = some b) (hf : f b = some b') : modify f m k = some (m.insert k b') := by
  simp [modify, hb, hf]

/-- The values of the keys are changed, when none of the changes fails. -/
theorem foldlM_modify {f : β → Option β} {g : β → β} (hnodup : ks.Nodup)
    {m : AList fun _ : κ => β} (h : ∀ k ∈ ks, ∃ b, m.lookup k = some b ∧ f b = some (g b)) :
    ∃ m', ks.foldlM (modify f) m = some m' ∧
      ∀ k, m'.lookup k = if k ∈ ks then (m.lookup k).map g else m.lookup k := by
  induction ks generalizing m with
  | nil => exact ⟨m, rfl, by simp⟩
  | cons a ks ih =>
    obtain ⟨ha, hnodup'⟩ := List.nodup_cons.mp hnodup
    obtain ⟨b, hb, hf⟩ := h a List.mem_cons_self
    -- the keys behind `a` still have their values
    have hrest : ∀ k ∈ ks, ∃ c, (m.insert a (g b)).lookup k = some c ∧ f c = some (g c) := by
      intro k hk
      have hne : k ≠ a := fun he => ha (he ▸ hk)
      rw [AList.lookup_insert_ne hne]
      exact h k (List.mem_cons_of_mem a hk)
    obtain ⟨m', hfold, hlookup⟩ := ih hnodup' hrest
    refine ⟨m', ?_, fun k => ?_⟩
    · rw [List.foldlM_cons, modify_eq hb hf]
      exact hfold
    · rw [hlookup]
      by_cases hk : k = a
      · subst hk
        simp [ha, hb]
      · simp [AList.lookup_insert_ne hk, hk]

/-- What no change of a value alters. -/
theorem map_lookup_foldlM_modify {γ : Type} {f : β → Option β} (g : β → γ)
    (hf : ∀ b b', f b = some b' → g b' = g b) {m m' : AList fun _ : κ => β}
    (h : ks.foldlM (modify f) m = some m') (k : κ) :
    (m'.lookup k).map g = (m.lookup k).map g := by
  induction ks generalizing m with
  | nil => rw [Option.some.inj h]
  | cons a ks ih =>
    rw [List.foldlM_cons, Option.bind_eq_bind, Option.bind_eq_some_iff] at h
    obtain ⟨m₁, hm₁, hrest⟩ := h
    rw [modify, Option.bind_eq_some_iff] at hm₁
    obtain ⟨b, hb, hm₁⟩ := hm₁
    obtain ⟨b', hb', rfl⟩ := Option.map_eq_some_iff.mp hm₁
    rw [ih hrest]
    by_cases hk : k = a
    · subst hk
      simp [hb, hf b b' hb']
    · rw [AList.lookup_insert_ne hk]

/-! ### Sizes -/

section

variable {m : AList fun _ : κ => β} {k : κ}

/-- The number of the entries. -/
def size (m : AList fun _ : κ => β) : ℕ := m.keys.length

theorem mem_of_lookup {v : β} (h : m.lookup k = some v) : k ∈ m :=
  AList.lookup_isSome.mp (Option.isSome_of_eq_some h)

theorem lookup_of_mem (h : k ∈ m) : ∃ v, m.lookup k = some v :=
  Option.isSome_iff_exists.mp (AList.lookup_isSome.mpr h)

theorem size_insert (hk : m.lookup k = none) (v : β) : size (m.insert k v) = size m + 1 := by
  have hnot : k ∉ m.keys := AList.lookup_eq_none.mp hk
  rw [size, AList.keys_insert, List.erase_of_not_mem hnot, List.length_cons]
  rfl

theorem size_erase (hk : k ∈ m) : size (m.erase k) + 1 = size m := by
  rw [size, AList.keys_erase]
  exact List.length_erase_add_one hk

end

end OrderedMaps
