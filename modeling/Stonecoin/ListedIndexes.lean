/-
An index whose entries belong to owners, with a list of the keys of each owner beside it, for
any owners, keys and values.  The list is what the entries are removed by.

  * `Lists`: the index has the entries of the owners that live;
  * `Lists.add`, `Lists.remove`: an owner comes, with keys that are new, or goes.
-/
import Stonecoin.MapMerge
import Stonecoin.OrderedMaps

/-- The entries, and the keys of each owner. -/
structure ListedIndex (H K V : Type) where
  entries : AList fun _ : K => V
  inserted : AList fun _ : H => List K

namespace ListedIndex

variable {H K V : Type} [DecidableEq H] [DecidableEq K]

/-- The entries of an owner come into the index; a key that is there keeps its value. -/
def add (index : ListedIndex H K V) (owner : H) (es : List (Σ _ : K, V)) : ListedIndex H K V where
  entries := es.foldl OrderedMaps.insertAbsent index.entries
  inserted := OrderedMaps.insertAbsent index.inserted ⟨owner, es.keys⟩

/-- The entries that are listed for an owner go. -/
def remove (index : ListedIndex H K V) (owner : H) : ListedIndex H K V :=
  match index.inserted.lookup owner with
  | none => index
  | some keys =>
    ⟨keys.foldl (fun entries key => entries.erase key) index.entries, index.inserted.erase owner⟩

/-- The index has the entries of the owners that live, each under a key of its own. -/
structure Lists (index : ListedIndex H K V) (live : H → Option (List (Σ _ : K, V))) : Prop where
  inserted : ∀ h, index.inserted.lookup h = (live h).map List.keys
  entries : ∀ e : Σ _ : K, V, e ∈ index.entries.entries ↔ ∃ h es, live h = some es ∧ e ∈ es
  nodup : ∀ h es, live h = some es → es.NodupKeys
  apart : ∀ h es h' es', live h = some es → live h' = some es' → h ≠ h' →
    ∀ k ∈ es.keys, k ∉ es'.keys

namespace Lists

variable {index : ListedIndex H K V} {live : H → Option (List (Σ _ : K, V))}

omit [DecidableEq K] in
theorem empty : Lists (⟨∅, ∅⟩ : ListedIndex H K V) fun _ => none := by
  refine ⟨fun h => by rw [AList.lookup_empty]; rfl, fun e => ?_, ?_, ?_⟩
  · constructor
    · intro he
      cases he
    · rintro ⟨h, es, hes, -⟩
      cases hes
  · intro h es hes
    cases hes
  · intro h es h' es' hes
    cases hes

omit [DecidableEq K] in
theorem congr (h : Lists index live) {live' : H → Option (List (Σ _ : K, V))}
    (heq : ∀ h, live' h = live h) : Lists index live' := by
  obtain rfl : live' = live := funext heq
  exact h

omit [DecidableEq K] in
/-- A key that is there is one of an owner. -/
theorem key (h : Lists index live) {k : K} (hk : k ∈ index.entries) :
    ∃ owner es, live owner = some es ∧ k ∈ es.keys := by
  obtain ⟨e, he, rfl⟩ := List.mem_map.mp (AList.mem_keys.mp hk)
  obtain ⟨owner, es, hes, hmem⟩ := (h.entries e).mp he
  exact ⟨owner, es, hes, List.mem_map_of_mem hmem⟩

theorem add (h : Lists index live) {owner : H} (hnone : live owner = none)
    {es : List (Σ _ : K, V)} (hnodup : es.NodupKeys)
    (hapart : ∀ h' es', live h' = some es' → ∀ k ∈ es.keys, k ∉ es'.keys) :
    Lists (index.add owner es) (Function.update live owner (some es)) := by
  have hfresh : ∀ e ∈ es, e.1 ∉ index.entries := by
    intro e he hin
    obtain ⟨h', es', hes', hk⟩ := h.key hin
    exact hapart h' es' hes' e.1 (List.mem_map_of_mem he) hk
  have hentries := OrderedMaps.entries_foldl_insertAbsent es index.entries hnodup hfresh
  have hlive : ∀ h' es', Function.update live owner (some es) h' = some es' →
      h' = owner ∧ es' = es ∨ h' ≠ owner ∧ live h' = some es' := by
    intro h' es' hes'
    by_cases hh : h' = owner
    · rw [hh, Function.update_self] at hes'
      exact .inl ⟨hh, (Option.some.inj hes').symm⟩
    · rw [Function.update_of_ne hh] at hes'
      exact .inr ⟨hh, hes'⟩
  refine ⟨fun h' => ?_, fun e => ?_, fun h' es' hes' => ?_, fun h₁ es₁ h₂ es₂ hes₁ hes₂ hne => ?_⟩
  · have habsent : owner ∉ index.inserted := by
      rw [← AList.lookup_eq_none, h.inserted owner, hnone]
      rfl
    show (OrderedMaps.insertAbsent index.inserted ⟨owner, es.keys⟩).lookup h' = _
    rw [OrderedMaps.insertAbsent, if_neg habsent]
    by_cases hh : h' = owner
    · rw [hh, AList.lookup_insert, Function.update_self]
      rfl
    · rw [AList.lookup_insert_ne hh, Function.update_of_ne hh]
      exact h.inserted h'
  · show e ∈ (es.foldl OrderedMaps.insertAbsent index.entries).entries ↔ _
    rw [hentries, List.mem_append, List.mem_reverse, h.entries e]
    constructor
    · rintro (he | ⟨h', es', hes', he⟩)
      · exact ⟨owner, es, Function.update_self .., he⟩
      · refine ⟨h', es', ?_, he⟩
        have hh : h' ≠ owner := by
          rintro rfl
          rw [hnone] at hes'
          cases hes'
        rwa [Function.update_of_ne hh]
    · rintro ⟨h', es', hes', he⟩
      rcases hlive h' es' hes' with ⟨-, rfl⟩ | ⟨-, hold⟩
      · exact .inl he
      · exact .inr ⟨h', es', hold, he⟩
  · rcases hlive h' es' hes' with ⟨-, rfl⟩ | ⟨-, hold⟩
    · exact hnodup
    · exact h.nodup h' es' hold
  · rcases hlive h₁ es₁ hes₁ with ⟨rfl, rfl⟩ | ⟨-, hold₁⟩
    · rcases hlive h₂ es₂ hes₂ with ⟨rfl, -⟩ | ⟨-, hold₂⟩
      · exact absurd rfl hne
      · exact hapart h₂ es₂ hold₂
    · rcases hlive h₂ es₂ hes₂ with ⟨rfl, rfl⟩ | ⟨-, hold₂⟩
      · exact fun k hk hk' => hapart h₁ es₁ hold₁ k hk' hk
      · exact h.apart h₁ es₁ h₂ es₂ hold₁ hold₂ hne

theorem remove (h : Lists index live) (owner : H) :
    Lists (index.remove owner) (Function.update live owner none) := by
  have hlive : ∀ h' es', Function.update live owner none h' = some es' →
      h' ≠ owner ∧ live h' = some es' := by
    intro h' es' hes'
    by_cases hh : h' = owner
    · rw [hh, Function.update_self] at hes'
      cases hes'
    · rw [Function.update_of_ne hh] at hes'
      exact ⟨hh, hes'⟩
  have hinserted := h.inserted owner
  rcases hl : live owner with - | es
  · -- nothing is listed, and nothing is removed
    rw [hl] at hinserted
    have hsame : index.remove owner = index := by
      rw [ListedIndex.remove, hinserted]
      rfl
    rw [hsame]
    refine h.congr fun h' => ?_
    by_cases hh : h' = owner
    · rw [hh, Function.update_self, hl]
    · rw [Function.update_of_ne hh]
  · rw [hl] at hinserted
    have heq : index.remove owner =
        ⟨es.keys.foldl (fun entries key => entries.erase key) index.entries,
          index.inserted.erase owner⟩ := by
      rw [ListedIndex.remove, hinserted]
      rfl
    rw [heq]
    refine ⟨fun h' => ?_, fun e => ?_, fun h' es' hes' => h.nodup h' es' (hlive h' es' hes').2,
      fun h₁ es₁ h₂ es₂ hes₁ hes₂ =>
        h.apart h₁ es₁ h₂ es₂ (hlive h₁ es₁ hes₁).2 (hlive h₂ es₂ hes₂).2⟩
    · by_cases hh : h' = owner
      · rw [hh, AList.lookup_erase, Function.update_self]
        rfl
      · rw [AList.lookup_erase_ne hh, Function.update_of_ne hh]
        exact h.inserted h'
    · have hmem : ∀ m : AList fun _ : K => V, e ∈ m.entries ↔ m.lookup e.1 = some e.2 :=
        fun m => AList.mem_lookup_iff.symm
      rw [hmem, MapMerge.lookup_foldl_erase]
      constructor
      · intro hlookup
        split_ifs at hlookup with hin
        obtain ⟨h', es', hes', he⟩ := (h.entries e).mp ((hmem _).mpr hlookup)
        refine ⟨h', es', ?_, he⟩
        have hh : h' ≠ owner := by
          rintro rfl
          obtain rfl := Option.some.inj (hl.symm.trans hes')
          exact hin (List.mem_map_of_mem he)
        rwa [Function.update_of_ne hh]
      · rintro ⟨h', es', hes', he⟩
        obtain ⟨hh, hold⟩ := hlive h' es' hes'
        rw [if_neg (h.apart h' es' owner es hold hl hh e.1 (List.mem_map_of_mem he))]
        exact (hmem _).mp ((h.entries e).mpr ⟨h', es', hold, he⟩)

omit [DecidableEq K] in
/-- The entries of the owners one after the other are all of the index. -/
theorem perm (h : Lists index live) {owners : List H} (howners : owners.Nodup)
    (hlive : ∀ h es, live h = some es → h ∈ owners) :
    index.entries.entries.Perm (owners.flatMap fun h => (live h).getD []) := by
  have hget : ∀ (e : Σ _ : K, V) h', e ∈ (live h').getD [] → ∃ es, live h' = some es ∧ e ∈ es := by
    intro e h' he
    rcases hl : live h' with - | es
    · rw [hl] at he
      cases he
    · rw [hl] at he
      exact ⟨es, rfl, he⟩
  have hnodup : (owners.flatMap fun h => (live h).getD []).Nodup := by
    rw [List.nodup_flatMap]
    refine ⟨fun h' _ => ?_, howners.imp fun {h₁ h₂} hne e he₁ he₂ => ?_⟩
    · rcases hl : live h' with - | es
      · exact List.nodup_nil
      · exact (h.nodup h' es hl).nodup
    · obtain ⟨es₁, hl₁, hmem₁⟩ := hget e h₁ he₁
      obtain ⟨es₂, hl₂, hmem₂⟩ := hget e h₂ he₂
      exact h.apart h₁ es₁ h₂ es₂ hl₁ hl₂ hne e.1 (List.mem_map_of_mem hmem₁)
        (List.mem_map_of_mem hmem₂)
  apply (List.perm_ext_iff_of_nodup index.entries.nodupKeys.nodup hnodup).mpr
  intro e
  rw [h.entries e, List.mem_flatMap]
  constructor
  · rintro ⟨h', es, hes, he⟩
    refine ⟨h', hlive h' es hes, ?_⟩
    rw [hes]
    exact he
  · rintro ⟨h', -, he⟩
    exact ⟨h', hget e h' he⟩

end Lists

end ListedIndex
