/-
Merging the entries of one finite map into another map, one entry at a time.

A map type is given by its two operations `get` and `set` (`set` with `none` removes)
and their law, so that association lists and functions are both instances.  Each entry
is merged by a function of what the target holds under the same key.

  * `get_mergeAll`: after the whole merge a key holds the merge of its own entry, and
    a key without an entry is unchanged; in particular the order does not matter;
  * `lookup_foldl_erase`: a loop that erases keys leaves the other entries.
-/
import Mathlib.Data.List.AList

namespace MapMerge

variable {K M : Type*} {β : Type*} {γ : Type*} [DecidableEq K]

/-- A map type with its lookup, its update, and the law between them. -/
structure MapOps (K M γ : Type*) [DecidableEq K] where
  get : M → K → Option γ
  set : M → K → Option γ → M
  get_set : ∀ m k o t, get (set m k o) t = if t = k then o else get m t

/-- Association lists. -/
def alistOps : MapOps K (AList fun _ : K => γ) γ where
  get m k := m.lookup k
  set m k o :=
    match o with
    | none => m.erase k
    | some v => m.insert k v
  get_set m k o t := by
    by_cases h : t = k
    · subst h
      cases o <;> simp
    · cases o with
      | none => simp [h, AList.lookup_erase_ne h]
      | some v => simp [h, AList.lookup_insert_ne h]

/-- Functions. -/
def funOps : MapOps K (K → Option γ) γ where
  get m k := m k
  set m k o := Function.update m k o
  get_set m k o t := by simp [Function.update_apply]

variable (ops : MapOps K M γ) (merge : Option γ → β → Option γ)

/-- Merge one entry. -/
def mergeOne (m : M) (e : Sigma fun _ : K => β) : M :=
  ops.set m e.1 (merge (ops.get m e.1) e.2)

/-- Merge all entries of a list, in its order. -/
def mergeAll (m : M) (es : List (Sigma fun _ : K => β)) : M :=
  es.foldl (mergeOne ops merge) m

/-- What a key holds after its entry, if it has one, is merged. -/
def merged (us : Option γ) : Option β → Option γ
  | none => us
  | some e => merge us e

/-- A list without the key leaves what the key holds. -/
theorem get_mergeAll_of_notMem {es : List (Sigma fun _ : K => β)} :
    ∀ (m : M) {t : K}, t ∉ es.keys → ops.get (mergeAll ops merge m es) t = ops.get m t := by
  induction es with
  | nil => intro m t _; rfl
  | cons e es ih =>
    intro m t ht
    simp only [List.keys_cons, List.mem_cons, not_or] at ht
    show ops.get (mergeAll ops merge (mergeOne ops merge m e) es) t = ops.get m t
    rw [ih _ ht.2, mergeOne, ops.get_set, if_neg ht.1]

theorem get_mergeAll {es : List (Sigma fun _ : K => β)} (hnd : es.NodupKeys) :
    ∀ (m : M) (t : K),
      ops.get (mergeAll ops merge m es) t = merged merge (ops.get m t) (es.dlookup t) := by
  induction es with
  | nil => intro m t; rfl
  | cons e es ih =>
    intro m t
    obtain ⟨k, b⟩ := e
    rw [List.nodupKeys_cons] at hnd
    show ops.get (mergeAll ops merge (mergeOne ops merge m ⟨k, b⟩) es) t = _
    by_cases h : t = k
    · subst h
      rw [get_mergeAll_of_notMem ops merge _ hnd.1, mergeOne, ops.get_set, if_pos rfl,
        List.dlookup_cons_eq]
      rfl
    · have hlook : List.dlookup t (⟨k, b⟩ :: es) = List.dlookup t es :=
        List.dlookup_cons_ne es ⟨k, b⟩ h
      rw [ih hnd.2, mergeOne, ops.get_set, if_neg h, hlook]

theorem lookup_foldl_erase : ∀ (ks : List K) (m : AList fun _ : K => β) (t : K),
    (ks.foldl (fun m k => m.erase k) m).lookup t = if t ∈ ks then none else m.lookup t
  | [], m, t => by simp
  | k :: ks, m, t => by
    rw [List.foldl_cons, lookup_foldl_erase ks (m.erase k) t]
    rcases eq_or_ne t k with rfl | hne
    · simp
    · rw [AList.lookup_erase_ne hne]
      simp [hne]

end MapMerge
