/-
`CacheMap` (`cachemap.h`) and `CacheMultiMap` (`cachemultimap.h`): a list of items, newest
first, with an index into it.  When the cache is full the oldest item goes.

An iterator into the list is given by what it points to.  In a `CacheMap` that is the item
of a key, so the index is a list of keys; in a `CacheMultiMap` it is the item of a key and a
value, so the index gives the values of a key.  `std::map` compares values by their
`operator<` only, here `lt`: values neither of which is less are the same to it.
-/
import Mathlib.Data.List.AList

namespace Stonecoin

variable {K V : Type} [DecidableEq K]

/-! ### `CacheMap` -/

structure CacheMap (K V : Type) where
  nMaxSize : ℕ
  nCurrentSize : ℕ
  listItems : List (K × V)
  mapIndex : List K

namespace CacheMap

def of (nMaxSizeIn : ℕ) : CacheMap K V := ⟨nMaxSizeIn, 0, [], []⟩

def clear (c : CacheMap K V) : CacheMap K V :=
  { c with mapIndex := [], listItems := [], nCurrentSize := 0 }

def pruneLast (c : CacheMap K V) : CacheMap K V :=
  if c.nCurrentSize < 1 then c
  else
    match c.listItems.getLast? with
    | none => c
    | some item =>
      { c with
        mapIndex := c.mapIndex.erase item.1
        listItems := c.listItems.dropLast
        nCurrentSize := c.nCurrentSize - 1 }

def insert (c : CacheMap K V) (key : K) (value : V) : CacheMap K V :=
  if key ∈ c.mapIndex then
    { c with listItems := c.listItems.map fun item => if item.1 = key then (key, value) else item }
  else
    let c := if c.nCurrentSize = c.nMaxSize then c.pruneLast else c
    { c with
      listItems := (key, value) :: c.listItems
      mapIndex := key :: c.mapIndex
      nCurrentSize := c.nCurrentSize + 1 }

def hasKey (c : CacheMap K V) (key : K) : Bool := key ∈ c.mapIndex

def erase (c : CacheMap K V) (key : K) : CacheMap K V :=
  if key ∈ c.mapIndex then
    { c with
      listItems := c.listItems.eraseP (·.1 = key)
      mapIndex := c.mapIndex.erase key
      nCurrentSize := c.nCurrentSize - 1 }
  else c

/-- The keys differ, and all of them are in the index. -/
structure Ok (c : CacheMap K V) : Prop where
  nodup : (c.listItems.map Prod.fst).Nodup
  index : c.mapIndex.Perm (c.listItems.map Prod.fst)
  size : c.nCurrentSize = c.listItems.length

omit [DecidableEq K] in
theorem ok_of (nMaxSizeIn : ℕ) : (of nMaxSizeIn : CacheMap K V).Ok :=
  ⟨List.nodup_nil, List.Perm.nil, rfl⟩

namespace Ok

variable {c : CacheMap K V}

omit [DecidableEq K] in
theorem clear : c.clear.Ok := ⟨List.nodup_nil, List.Perm.nil, rfl⟩

omit [DecidableEq K] in
theorem mem_index (h : c.Ok) {key : K} :
    key ∈ c.mapIndex ↔ ∃ value, (key, value) ∈ c.listItems := by
  rw [h.index.mem_iff, List.mem_map]
  constructor
  · rintro ⟨⟨k, value⟩, hmem, rfl⟩
    exact ⟨value, hmem⟩
  · rintro ⟨value, hmem⟩
    exact ⟨(key, value), hmem, rfl⟩

theorem pruneLast (h : c.Ok) : c.pruneLast.Ok := by
  unfold CacheMap.pruneLast
  split_ifs with hsize
  · exact h
  · cases hlast : c.listItems.getLast? with
    | none => exact h
    | some item =>
      obtain ⟨init, hinit⟩ := List.getLast?_eq_some_iff.mp hlast
      have hdrop : c.listItems.dropLast = init := by rw [hinit, List.dropLast_concat]
      have hnd := h.nodup
      have hperm := h.index
      have hlen := h.size
      rw [hinit, List.map_append] at hnd hperm
      rw [hinit, List.length_append] at hlen
      refine ⟨?_, ?_, ?_⟩
      · show ((c.listItems.dropLast).map Prod.fst).Nodup
        rw [hdrop]
        exact (List.nodup_append.mp hnd).1
      · show (c.mapIndex.erase item.1).Perm ((c.listItems.dropLast).map Prod.fst)
        rw [hdrop]
        have hcons := (hperm.trans List.perm_append_comm).erase item.1
        simpa using hcons
      · show c.nCurrentSize - 1 = c.listItems.dropLast.length
        rw [hdrop, hlen]
        rfl

theorem notMem_pruneLast {key : K} (hkey : key ∉ c.mapIndex) : key ∉ c.pruneLast.mapIndex := by
  unfold CacheMap.pruneLast
  split_ifs with hsize
  · exact hkey
  · cases hlast : c.listItems.getLast? with
    | none => exact hkey
    | some item => exact fun hmem => hkey (List.mem_of_mem_erase hmem)

theorem insert (h : c.Ok) (key : K) (value : V) : (c.insert key value).Ok := by
  unfold CacheMap.insert
  split_ifs with hkey hfull
  · have hkeys : (c.listItems.map fun item => if item.1 = key then (key, value) else item).map
        Prod.fst = c.listItems.map Prod.fst := by
      rw [List.map_map]
      apply List.map_congr_left
      intro item _
      show (if item.1 = key then (key, value) else item).1 = item.1
      split_ifs with hitem
      · exact hitem.symm
      · rfl
    refine ⟨?_, ?_, ?_⟩
    · show (List.map Prod.fst _).Nodup
      rw [hkeys]
      exact h.nodup
    · show c.mapIndex.Perm (List.map Prod.fst _)
      rw [hkeys]
      exact h.index
    · show c.nCurrentSize = (List.map _ c.listItems).length
      rw [List.length_map]
      exact h.size
  all_goals
    have hbase : ∀ {d : CacheMap K V}, d.Ok → key ∉ d.mapIndex →
        ({ d with
          listItems := (key, value) :: d.listItems
          mapIndex := key :: d.mapIndex
          nCurrentSize := d.nCurrentSize + 1 } : CacheMap K V).Ok := by
      intro d hd hnew
      refine ⟨?_, hd.index.cons key, congrArg (· + 1) hd.size⟩
      exact List.nodup_cons.mpr ⟨fun hmem => hnew (hd.index.mem_iff.mpr hmem), hd.nodup⟩
  · exact hbase h.pruneLast (notMem_pruneLast hkey)
  · exact hbase h hkey

theorem eraseP_eq_filter {key : K} : ∀ {items : List (K × V)}, (items.map Prod.fst).Nodup →
    items.eraseP (·.1 = key) = items.filter (·.1 ≠ key)
  | [], _ => rfl
  | item :: items, hnd => by
    obtain ⟨hitem, hnd'⟩ := List.nodup_cons.mp hnd
    rcases eq_or_ne item.1 key with he | he
    · rw [List.eraseP_cons_of_pos (by simpa using he), List.filter_cons_of_neg (by simpa using he)]
      refine (List.filter_eq_self.mpr fun it hit => ?_).symm
      have hne : it.1 ≠ key := by
        intro hit'
        rw [he, ← hit'] at hitem
        exact hitem (List.mem_map.mpr ⟨it, hit, rfl⟩)
      simpa using hne
    · rw [List.eraseP_cons_of_neg (by simpa using he), List.filter_cons_of_pos (by simpa using he),
        eraseP_eq_filter hnd']

theorem erase_listItems (h : c.Ok) (key : K) :
    (c.erase key).listItems = c.listItems.filter (·.1 ≠ key) := by
  unfold CacheMap.erase
  split_ifs with hkey
  · exact eraseP_eq_filter h.nodup
  · refine (List.filter_eq_self.mpr fun item hitem => ?_).symm
    have hne : item.1 ≠ key := by
      rintro rfl
      exact hkey (h.mem_index.mpr ⟨item.2, hitem⟩)
    simpa using hne

theorem mem_erase (h : c.Ok) {key : K} {item : K × V} :
    item ∈ (c.erase key).listItems ↔ item ∈ c.listItems ∧ item.1 ≠ key := by
  rw [erase_listItems h, List.mem_filter]
  simp

theorem erase (h : c.Ok) (key : K) : (c.erase key).Ok := by
  have hitems := h.erase_listItems key
  have hkeys : (c.erase key).listItems.map Prod.fst = (c.listItems.map Prod.fst).erase key := by
    rw [hitems, h.nodup.erase_eq_filter, List.filter_map]
    congr 1
    apply List.filter_congr
    intro item _
    rcases eq_or_ne item.1 key with he | he
    · simp [he]
    · simp [he]
  have hnodup : ((c.erase key).listItems.map Prod.fst).Nodup := by
    rw [hkeys]
    exact h.nodup.erase key
  unfold CacheMap.erase at hkeys hnodup ⊢
  split_ifs at hkeys hnodup ⊢ with hkey
  · have hperm : (c.mapIndex.erase key).Perm
        ((c.listItems.eraseP (·.1 = key)).map Prod.fst) := by
      rw [hkeys]
      exact h.index.erase key
    refine ⟨hnodup, hperm, ?_⟩
    have hlen := hperm.length_eq
    rw [List.length_map, List.length_erase_of_mem hkey, h.index.length_eq, List.length_map,
      ← h.size] at hlen
    exact hlen
  · exact h

end Ok

theorem mem_insert {c : CacheMap K V} {key : K} {value : V} {item : K × V}
    (hmem : item ∈ (c.insert key value).listItems) : item = (key, value) ∨ item ∈ c.listItems := by
  unfold CacheMap.insert at hmem
  split_ifs at hmem with hkey hfull
  · obtain ⟨it, hit, he⟩ := List.mem_map.mp hmem
    split_ifs at he
    · exact .inl he.symm
    · exact .inr (he ▸ hit)
  · refine (List.mem_cons.mp hmem).imp_right fun hmem => ?_
    unfold pruneLast at hmem
    split_ifs at hmem
    · exact hmem
    · cases hlast : c.listItems.getLast? with
      | none => rwa [hlast] at hmem
      | some it =>
        rw [hlast] at hmem
        exact List.dropLast_subset _ hmem
  · exact List.mem_cons.mp hmem

end CacheMap

/-! ### `CacheMultiMap` -/

structure CacheMultiMap (K V : Type) where
  nMaxSize : ℕ
  nCurrentSize : ℕ
  listItems : List (K × V)
  mapIndex : AList fun _ : K => List V

namespace CacheMultiMap

def of (nMaxSizeIn : ℕ) : CacheMultiMap K V := ⟨nMaxSizeIn, 0, [], ∅⟩

variable (lt : V → V → Bool)

/-- To a `std::map` two values are the same if neither is less. -/
def same (v w : V) : Bool := !lt v w && !lt w v

/-- The place of a new value in a `std::map`. -/
def insertValue (value : V) : List V → List V
  | [] => [value]
  | v :: vs => if lt value v then value :: v :: vs else v :: insertValue value vs

def eraseIndex (mapIndex : AList fun _ : K => List V) (key : K) (value : V) :
    AList fun _ : K => List V :=
  match mapIndex.lookup key with
  | none => mapIndex
  | some mapIt =>
    let mapIt := mapIt.eraseP (same lt value)
    if mapIt.isEmpty then mapIndex.erase key else mapIndex.insert key mapIt

def pruneLast (c : CacheMultiMap K V) : CacheMultiMap K V :=
  if c.nCurrentSize < 1 then c
  else
    match c.listItems.getLast? with
    | none => c
    | some item =>
      { c with
        mapIndex := eraseIndex lt c.mapIndex item.1 item.2
        listItems := c.listItems.dropLast
        nCurrentSize := c.nCurrentSize - 1 }

def insert (c : CacheMultiMap K V) (key : K) (value : V) : Bool × CacheMultiMap K V :=
  let c := if c.nCurrentSize = c.nMaxSize then c.pruneLast lt else c
  let mapIt := (c.mapIndex.lookup key).getD []
  -- duplicates are not inserted
  if mapIt.any (same lt value) then (false, c)
  else
    (true, { c with
      listItems := (key, value) :: c.listItems
      mapIndex := c.mapIndex.insert key (insertValue lt value mapIt)
      nCurrentSize := c.nCurrentSize + 1 })

def getAll (c : CacheMultiMap K V) (key : K) : List V := (c.mapIndex.lookup key).getD []

def erase [DecidableEq V] (c : CacheMultiMap K V) (key : K) (value : V) : CacheMultiMap K V :=
  match (c.getAll key).find? (same lt value) with
  | none => c
  | some v =>
    { c with
      listItems := c.listItems.erase (key, v)
      mapIndex := eraseIndex lt c.mapIndex key value
      nCurrentSize := c.nCurrentSize - 1 }

/-! #### What a key may hold -/

theorem mem_eraseIndex {mapIndex : AList fun _ : K => List V} {key k : K} {value w : V}
    (h : w ∈ ((eraseIndex lt mapIndex key value).lookup k).getD []) :
    w ∈ (mapIndex.lookup k).getD [] := by
  unfold eraseIndex at h
  cases hl : mapIndex.lookup key with
  | none => rwa [hl] at h
  | some mapIt =>
    simp only [hl] at h
    split_ifs at h with hempty
    · rcases eq_or_ne k key with rfl | hk
      · rw [AList.lookup_erase] at h
        exact absurd h List.not_mem_nil
      · rwa [AList.lookup_erase_ne hk] at h
    · rcases eq_or_ne k key with rfl | hk
      · rw [AList.lookup_insert] at h
        rw [hl]
        exact List.mem_of_mem_eraseP h
      · rwa [AList.lookup_insert_ne hk] at h

theorem mem_getAll_pruneLast {c : CacheMultiMap K V} {k : K} {w : V}
    (h : w ∈ (c.pruneLast lt).getAll k) : w ∈ c.getAll k := by
  unfold pruneLast at h
  split_ifs at h with hsize
  · exact h
  · cases hlast : c.listItems.getLast? with
    | none => rwa [hlast] at h
    | some item =>
      rw [hlast] at h
      exact mem_eraseIndex lt h

theorem mem_insertValue {value w : V} : ∀ {vs : List V}, w ∈ insertValue lt value vs →
    w = value ∨ w ∈ vs
  | [], h => .inl (List.mem_singleton.mp h)
  | v :: vs, h => by
    unfold insertValue at h
    split_ifs at h
    · exact List.mem_cons.mp h
    · rcases List.mem_cons.mp h with rfl | h
      · exact .inr List.mem_cons_self
      · exact (mem_insertValue h).imp_right (List.mem_cons_of_mem _)

theorem mem_getAll_insert {c : CacheMultiMap K V} {key k : K} {value w : V}
    (h : w ∈ (c.insert lt key value).2.getAll k) : w = value ∨ w ∈ c.getAll k := by
  have hprune : ∀ {k : K} {w : V},
      w ∈ (if c.nCurrentSize = c.nMaxSize then c.pruneLast lt else c).getAll k →
        w ∈ c.getAll k := by
    intro k w hw
    split_ifs at hw
    · exact mem_getAll_pruneLast lt hw
    · exact hw
  unfold insert at h
  generalize (if c.nCurrentSize = c.nMaxSize then c.pruneLast lt else c) = d at h hprune
  dsimp only at h
  split_ifs at h with hany
  · exact .inr (hprune h)
  · rcases eq_or_ne k key with rfl | hk
    · unfold getAll at h
      rw [AList.lookup_insert] at h
      exact (mem_insertValue lt h).imp_right hprune
    · unfold getAll at h
      rw [AList.lookup_insert_ne hk] at h
      exact .inr (hprune h)

/-! #### When no value is less than another -/

section NoneLess

variable {lt} (hlt : ∀ v w : V, lt v w = false)

include hlt

theorem insert_of_none_less {c : CacheMultiMap K V}
    (hroom : c.nCurrentSize = c.nMaxSize → c.nCurrentSize = 0) (key : K) (value : V) :
    (c.insert lt key value).2.nMaxSize = c.nMaxSize ∧
      (c.insert lt key value).2.nCurrentSize ≤ c.nCurrentSize + 1 ∧
      ∀ k, (c.insert lt key value).2.getAll k =
        if k = key ∧ c.getAll key = [] then [value] else c.getAll k := by
  have hprune : (if c.nCurrentSize = c.nMaxSize then c.pruneLast lt else c) = c := by
    split_ifs with hfull
    · rw [pruneLast, if_pos (by rw [hroom hfull]; exact Nat.zero_lt_one)]
    · rfl
  have hsame : ∀ v w : V, same lt v w = true := fun v w => by simp [same, hlt]
  unfold insert
  rw [hprune]
  cases hall : c.getAll key with
  | nil =>
    have hany : ((c.mapIndex.lookup key).getD []).any (same lt value) = false := by
      show (c.getAll key).any (same lt value) = false
      rw [hall, List.any_nil]
    simp only [hany, Bool.false_eq_true, if_false]
    refine ⟨trivial, Nat.le_refl _, fun k => ?_⟩
    show ((c.mapIndex.insert key (insertValue lt value (c.getAll key))).lookup k).getD [] = _
    rcases eq_or_ne k key with rfl | hk
    · rw [AList.lookup_insert, hall, if_pos ⟨rfl, trivial⟩]
      rfl
    · rw [AList.lookup_insert_ne hk, if_neg (fun h => hk h.1)]
      rfl
  | cons v vs =>
    have hany : ((c.mapIndex.lookup key).getD []).any (same lt value) = true := by
      show (c.getAll key).any (same lt value) = true
      rw [hall, List.any_cons, hsame, Bool.true_or]
    simp only [hany, if_true]
    refine ⟨trivial, Nat.le_succ _, fun k => ?_⟩
    rw [if_neg (fun h => List.cons_ne_nil _ _ h.2)]

theorem getAll_foldl_insert (k : K) : ∀ {items : List (K × V)} {c : CacheMultiMap K V},
    c.nMaxSize = 0 ∨ c.nCurrentSize + items.length < c.nMaxSize →
    (items.foldl (fun c item => (c.insert lt item.1 item.2).2) c).getAll k =
      if c.getAll k = [] then ((items.find? (·.1 = k)).map Prod.snd).toList else c.getAll k
  | [], c, _ => by
    rw [List.foldl_nil]
    split_ifs with hnil
    · exact hnil
    · rfl
  | item :: items, c, hroom => by
    have hspare : c.nCurrentSize = c.nMaxSize → c.nCurrentSize = 0 := by
      rw [List.length_cons] at hroom
      omega
    obtain ⟨hmax, hsize, hget⟩ := insert_of_none_less hlt hspare item.1 item.2
    rw [List.foldl_cons, getAll_foldl_insert k (by
      rw [List.length_cons] at hroom; rw [hmax]; omega), hget k]
    rcases eq_or_ne k item.1 with rfl | hk
    · cases hall : c.getAll item.1 with
      | nil => simp
      | cons v vs => simp
    · have hfind : (item :: items).find? (·.1 = k) = items.find? (·.1 = k) := by
        rw [List.find?_cons_of_neg]
        simpa using hk.symm
      have hno : ¬ (k = item.1 ∧ c.getAll item.1 = []) := fun h => hk h.1
      rw [hfind, if_neg hno]

omit hlt

/-- A cache without a limit that holds one value for each key at most. -/
structure OneEach (c : CacheMultiMap K V) : Prop where
  nMaxSize : c.nMaxSize = 0
  nCurrentSize : c.nCurrentSize = c.listItems.length
  nodup : (c.listItems.map Prod.fst).Nodup
  index : ∀ key, c.getAll key = ((c.listItems.find? (·.1 = key)).map Prod.snd).toList

theorem oneEach_of : OneEach (of 0 : CacheMultiMap K V) := ⟨rfl, rfl, List.nodup_nil, fun _ => rfl⟩

namespace OneEach

variable {c : CacheMultiMap K V} {key : K} {value : V}

theorem find?_of_mem (h : c.OneEach) (hmem : (key, value) ∈ c.listItems) :
    c.listItems.find? (·.1 = key) = some (key, value) := by
  cases hfind : c.listItems.find? (·.1 = key) with
  | none => exact absurd (List.find?_eq_none.mp hfind _ hmem) (by simp)
  | some item =>
    have hkey : item.1 = key := by simpa using List.find?_some hfind
    rw [List.inj_on_of_nodup_map h.nodup (List.mem_of_find?_eq_some hfind) hmem hkey]

theorem getAll_of_mem (h : c.OneEach) (hmem : (key, value) ∈ c.listItems) :
    c.getAll key = [value] := by
  rw [h.index, h.find?_of_mem hmem]
  rfl

theorem getAll_of_notMem (h : c.OneEach) (hkey : key ∉ c.listItems.map Prod.fst) :
    c.getAll key = [] := by
  have hfind : c.listItems.find? (·.1 = key) = none := by
    rw [List.find?_eq_none]
    intro item hitem hk
    exact hkey (List.mem_map.mpr ⟨item, hitem, by simpa using hk⟩)
  rw [h.index, hfind]
  rfl

theorem pruneLast (h : c.OneEach) :
    (if c.nCurrentSize = c.nMaxSize then c.pruneLast lt else c) = c := by
  split_ifs with hfull
  · rw [CacheMultiMap.pruneLast, if_pos (by rw [hfull, h.nMaxSize]; exact Nat.zero_lt_one)]
  · rfl

variable (lt) in
theorem insert_of_notMem (h : c.OneEach) (hkey : key ∉ c.listItems.map Prod.fst) (value : V) :
    (c.insert lt key value).2.OneEach ∧
      (c.insert lt key value).2.listItems = (key, value) :: c.listItems := by
  have hany : ¬ ((c.mapIndex.lookup key).getD []).any (same lt value) = true := by
    show ¬ (c.getAll key).any (same lt value) = true
    rw [h.getAll_of_notMem hkey]
    exact Bool.false_ne_true
  have heq : (c.insert lt key value).2 =
      { c with
        listItems := (key, value) :: c.listItems
        mapIndex := c.mapIndex.insert key (insertValue lt value (c.getAll key))
        nCurrentSize := c.nCurrentSize + 1 } := by
    unfold CacheMultiMap.insert
    rw [h.pruneLast]
    exact congrArg Prod.snd (if_neg hany)
  rw [heq]
  refine ⟨⟨h.nMaxSize, ?_, List.nodup_cons.mpr ⟨hkey, h.nodup⟩, fun k => ?_⟩, rfl⟩
  · rw [List.length_cons, ← h.nCurrentSize]
  · show ((c.mapIndex.insert key (insertValue lt value (c.getAll key))).lookup k).getD [] = _
    rcases eq_or_ne k key with rfl | hk
    · rw [AList.lookup_insert, h.getAll_of_notMem hkey]
      simp [insertValue]
    · rw [AList.lookup_insert_ne hk, List.find?_cons_of_neg (by simpa using hk.symm)]
      exact h.index k

include hlt

theorem insert_of_mem (h : c.OneEach) (hkey : key ∈ c.listItems.map Prod.fst) (value : V) :
    c.insert lt key value = (false, c) := by
  obtain ⟨w, hw⟩ : ∃ w, (key, w) ∈ c.listItems := by simpa using hkey
  have hany : ((c.mapIndex.lookup key).getD []).any (same lt value) = true := by
    show (c.getAll key).any (same lt value) = true
    rw [h.getAll_of_mem hw]
    simp [same, hlt]
  unfold CacheMultiMap.insert
  rw [h.pruneLast]
  exact if_pos hany

theorem erase [DecidableEq V] (h : c.OneEach) (hmem : (key, value) ∈ c.listItems) :
    (c.erase lt key value).OneEach ∧ ∀ item, item ∈ (c.erase lt key value).listItems ↔
      item ∈ c.listItems ∧ item ≠ (key, value) := by
  have hsame : same lt value value = true := by simp [same, hlt]
  have hlookup : c.mapIndex.lookup key = some [value] := by
    have hget := h.getAll_of_mem hmem
    unfold getAll at hget
    cases hl : c.mapIndex.lookup key with
    | none => rw [hl] at hget; cases hget
    | some vs => rw [hl] at hget; exact congrArg some hget
  have heq : c.erase lt key value =
      { c with
        listItems := c.listItems.erase (key, value)
        mapIndex := c.mapIndex.erase key
        nCurrentSize := c.nCurrentSize - 1 } := by
    unfold CacheMultiMap.erase eraseIndex
    rw [h.getAll_of_mem hmem, hlookup]
    simp [hsame]
  have hperm := List.perm_cons_erase hmem
  have hnodup : (((key, value) :: c.listItems.erase (key, value)).map Prod.fst).Nodup :=
    (hperm.map Prod.fst).nodup_iff.mp h.nodup
  rw [List.map_cons, List.nodup_cons] at hnodup
  rw [heq]
  refine ⟨⟨h.nMaxSize, ?_, hnodup.2, fun k => ?_⟩, fun item => ?_⟩
  · show c.nCurrentSize - 1 = (c.listItems.erase (key, value)).length
    rw [List.length_erase_of_mem hmem, h.nCurrentSize]
  · show ((c.mapIndex.erase key).lookup k).getD [] = _
    rcases eq_or_ne k key with rfl | hk
    · have hfind : (c.listItems.erase (k, value)).find? (·.1 = k) = none := by
        rw [List.find?_eq_none]
        intro item hitem hkey
        exact hnodup.1 (List.mem_map.mpr ⟨item, hitem, by simpa using hkey⟩)
      rw [AList.lookup_erase, hfind]
      rfl
    · have hfind : (c.listItems.erase (key, value)).find? (·.1 = k) =
          c.listItems.find? (·.1 = k) := by
        rw [h.nodup.of_map.erase_eq_filter, List.find?_filter]
        congr 1
        funext item
        by_cases hi : item.1 = k
        · have hne : item ≠ (key, value) := fun he => hk (hi.symm.trans (congrArg Prod.fst he))
          simp [hi, hne]
        · simp [hi]
      rw [AList.lookup_erase_ne hk, hfind]
      exact h.index k
  · rw [h.nodup.of_map.mem_erase_iff, and_comm]

end OneEach

end NoneLess

end CacheMultiMap

end Stonecoin
