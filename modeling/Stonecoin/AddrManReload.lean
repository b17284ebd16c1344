/-
The address manager survives saving and loading.

What `Unserialize` has built is compared with the manager that was written, under the new
numbers: `Copied s ids done t` says that `t` holds the entries `ids` of `s` in this order, and
of the new table of `s` the slots in `done`.
-/
import Stonecoin.AddrManFile
import Mathlib.Algebra.Order.BigOperators.Group.Finset

namespace Stonecoin

open SlotTables OrderedMaps Readers

namespace CAddrMan

variable {hashes : AddrHashes} {s t t' : CAddrMan} {nVersion : ℤ} {id : ℕ} {info : CAddrInfo}

/-! ### The entries in the order of their numbers -/

theorem mem_sortedEntries {m : AList fun _ : ℕ => CAddrInfo} {p : Σ _ : ℕ, CAddrInfo} :
    p ∈ sortedEntries (· ≤ ·) m ↔ m.lookup p.1 = some p.2 := by
  rw [(perm_sortedEntries _ m).mem_iff]
  exact AList.mem_lookup_iff.symm

theorem nodupKeys_sortedEntries (m : AList fun _ : ℕ => CAddrInfo) :
    (sortedEntries (· ≤ ·) m).NodupKeys :=
  ((perm_sortedEntries _ m).map Sigma.fst).nodup_iff.mpr m.nodupKeys

theorem Inv.refs_iff (h : Inv hashes ∅ 0 s) (hid : s.mapInfo.lookup id = some info) :
    info.nRefCount ≠ 0 ↔ info.fInTried = false := by
  constructor
  · intro hrefs
    by_contra htried
    exact hrefs (h.nRefCount_of_tried hid (Bool.not_eq_false _ ▸ htried))
  · intro hnew
    exact ((h.entry hid).live hnew).resolve_right (Set.notMem_empty id)

/-! ### What is written -/

/-- The entries that are written first. -/
def hasRefs (p : Σ _ : ℕ, CAddrInfo) : Bool := p.2.nRefCount ≠ 0

/-- The entries that are written after them. -/
def isTried (p : Σ _ : ℕ, CAddrInfo) : Bool := p.2.fInTried

theorem writeNew_eq (s : CAddrMan) (nVersion : ℤ) : ∀ (l : List (Σ _ : ℕ, CAddrInfo)) (nIds : ℕ)
    (m : AList fun _ : ℕ => ℕ) (w : List UInt8), l.NodupKeys →
      ((nIds + (l.filter hasRefs).length : ℕ) : ℤ) ≤ s.nNew →
      ∃ m', s.writeNew nVersion l nIds m w =
          some (w ++ (l.filter hasRefs).flatMap fun p => p.2.write nVersion, m') ∧
        (∀ k, k ∉ l.keys → m'.lookup k = m.lookup k) ∧
        ∀ p ∈ l.filter hasRefs,
          m'.lookup p.1 = some (nIds + ((l.filter hasRefs).map Sigma.fst).idxOf p.1) := by
  intro l
  induction l with
  | nil =>
    intro nIds m w _ _
    exact ⟨m, by simp [writeNew], fun _ _ => rfl, fun p hp => absurd hp (List.not_mem_nil)⟩
  | cons q l ih =>
    intro nIds m w hnodup hcount
    obtain ⟨n, info⟩ := q
    obtain ⟨hn, hnodup'⟩ := List.nodupKeys_cons.mp hnodup
    by_cases hrefs : info.nRefCount ≠ 0
    · have hfilter : (⟨n, info⟩ :: l).filter hasRefs = ⟨n, info⟩ :: l.filter hasRefs :=
        List.filter_cons_of_pos (by simpa [hasRefs] using hrefs)
      rw [hfilter] at hcount ⊢
      rw [List.length_cons] at hcount
      have hless : ¬ (nIds : ℤ) = s.nNew := by omega
      obtain ⟨m', hwrite, hout, hin⟩ := ih (nIds + 1) (m.insert n nIds)
        (w ++ info.write nVersion) hnodup' (by omega)
      refine ⟨m', ?_, fun k hk => ?_, fun p hp => ?_⟩
      · rw [writeNew, if_pos hrefs, if_neg hless, hwrite, List.flatMap_cons, List.append_assoc]
      · rw [List.keys_cons, List.mem_cons, not_or] at hk
        rw [hout k hk.2, AList.lookup_insert_ne hk.1]
      · rw [List.map_cons]
        rcases List.mem_cons.mp hp with rfl | hp'
        · rw [hout n hn, AList.lookup_insert, List.idxOf_cons_self, Nat.add_zero]
        · have hne : n ≠ p.1 := by
            intro heq
            have hkey : p.1 ∈ l.keys := List.mem_keys_of_mem (List.mem_of_mem_filter hp')
            exact hn (heq ▸ hkey)
          rw [hin p hp', List.idxOf_cons_ne _ hne]
          congr 1
          omega
    · have hfilter : (⟨n, info⟩ :: l).filter hasRefs = l.filter hasRefs :=
        List.filter_cons_of_neg (by simpa [hasRefs] using hrefs)
      rw [hfilter] at hcount ⊢
      obtain ⟨m', hwrite, hout, hin⟩ := ih nIds (m.insert n nIds) w hnodup' hcount
      refine ⟨m', ?_, fun k hk => ?_, hin⟩
      · rw [writeNew, if_neg hrefs, hwrite]
      · rw [List.keys_cons, List.mem_cons, not_or] at hk
        rw [hout k hk.2, AList.lookup_insert_ne hk.1]

theorem writeTried_eq (s : CAddrMan) (nVersion : ℤ) : ∀ (l : List (Σ _ : ℕ, CAddrInfo)) (nIds : ℕ)
    (w : List UInt8), ((nIds + (l.filter isTried).length : ℕ) : ℤ) ≤ s.nTried →
      s.writeTried nVersion l nIds w =
        some (w ++ (l.filter isTried).flatMap fun p => p.2.write nVersion) := by
  intro l
  induction l with
  | nil =>
    intro nIds w _
    simp [writeTried]
  | cons q l ih =>
    intro nIds w hcount
    obtain ⟨n, info⟩ := q
    by_cases htried : info.fInTried = true
    · have hfilter : (⟨n, info⟩ :: l).filter isTried = ⟨n, info⟩ :: l.filter isTried :=
        List.filter_cons_of_pos htried
      rw [hfilter] at hcount ⊢
      rw [List.length_cons] at hcount
      have hless : ¬ (nIds : ℤ) = s.nTried := by omega
      rw [writeTried, if_pos htried, if_neg hless, ih _ _ (by omega), List.flatMap_cons,
        List.append_assoc]
    · have hfilter : (⟨n, info⟩ :: l).filter isTried = l.filter isTried :=
        List.filter_cons_of_neg htried
      rw [hfilter] at hcount ⊢
      rw [writeTried, if_neg htried, ih _ _ hcount]

/-! ### What has been read -/

/-- The entry `id` of `s` as it is read under the number `j`, when the slots in `done` have been
read. -/
def copyOf (s : CAddrMan) (done : Finset NewSlot) (j id : ℕ) (info : CAddrInfo) : CAddrInfo :=
  { info with
    nLastTry := 0
    nRandomPos := j
    nRefCount := (slots s.vvNew id ∩ done).card }

theorem copyOf_empty (s : CAddrMan) (j id : ℕ) (info : CAddrInfo) : copyOf s ∅ j id info =
    { info with nLastTry := 0, nRandomPos := j, nRefCount := 0 } := by
  simp [copyOf]

def triedAt (s : CAddrMan) (id : ℕ) : Bool := (s.mapInfo.lookup id).any CAddrInfo.fInTried

/-- The entries `ids` of `s`, and of the new table the slots in `done`, have been read. -/
structure Copied (s : CAddrMan) (ids : List ℕ) (done : Finset NewSlot) (t : CAddrMan) : Prop where
  nKey : t.nKey = s.nKey
  info : ∀ j info', t.mapInfo.lookup j = some info' ↔ ∃ id info, ids[j]? = some id ∧
    s.mapInfo.lookup id = some info ∧ info' = copyOf s done j id info
  addr : ∀ ip j, t.mapAddr.lookup ip = some j ↔ ∃ id info, ids[j]? = some id ∧
    s.mapInfo.lookup id = some info ∧ info.ip = ip
  random : t.vRandom = List.range ids.length
  tried : ∀ slot j, t.vvTried slot = some j ↔ ∃ id, ids[j]? = some id ∧ s.vvTried slot = some id
  new : ∀ slot j, t.vvNew slot = some j ↔ ∃ id, ids[j]? = some id ∧ slot ∈ done ∧
    s.vvNew slot = some id
  size : t.mapInfo.entries.length = ids.length
  countTried : count CAddrInfo.fInTried t.mapInfo = ids.countP (triedAt s)

variable {ids : List ℕ} {done : Finset NewSlot}

theorem getElem?_snoc {ids : List ℕ} {id k : ℕ} (j : ℕ) :
    (ids ++ [id])[j]? = some k ↔ ids[j]? = some k ∨ (j = ids.length ∧ k = id) := by
  rcases lt_trichotomy j ids.length with hlt | rfl | hgt
  · rw [List.getElem?_append_left hlt]
    simp [hlt.ne]
  · simp [eq_comm]
  · have hlen : (ids ++ [id]).length ≤ j := by
      rw [List.length_append, List.length_singleton]
      exact hgt
    have hnone : (ids ++ [id])[j]? = none := List.getElem?_eq_none hlen
    have hnone' : ids[j]? = none := List.getElem?_eq_none hgt.le
    simp [hnone, hnone', hgt.ne']

theorem Copied.lookup_length (h : Copied s ids done t) : t.mapInfo.lookup ids.length = none := by
  cases hl : t.mapInfo.lookup ids.length with
  | none => rfl
  | some info' =>
    obtain ⟨id, -, hid, -⟩ := (h.info _ _).mp hl
    have hlt := (List.getElem?_eq_some_iff.mp hid).1
    omega

theorem Copied.snoc (h : Copied s ids ∅ t) (hinv : Inv hashes ∅ 0 s) (hout : id ∉ ids)
    (hid : s.mapInfo.lookup id = some info) (hkey : t'.nKey = t.nKey)
    (hinfo : t'.mapInfo = t.mapInfo.insert ids.length (copyOf s ∅ ids.length id info))
    (haddr : t'.mapAddr = t.mapAddr.insert info.ip ids.length)
    (hrandom : t'.vRandom = t.vRandom ++ [ids.length])
    (htried : ∀ slot, t'.vvTried slot =
      if info.fInTried = true ∧ slot = triedSlot hashes s info.toCService then some ids.length
      else t.vvTried slot)
    (hnew : t'.vvNew = t.vvNew) :
    Copied s (ids ++ [id]) ∅ t' := by
  have hfresh := h.lookup_length
  have hlast : ids[ids.length]? = none := List.getElem?_eq_none (le_refl ids.length)
  constructor
  case nKey => exact hkey.trans h.nKey
  case info =>
    intro j info'
    by_cases hj : j = ids.length
    · subst hj
      rw [hinfo, AList.lookup_insert]
      constructor
      · intro heq
        exact ⟨id, info, by simp, hid, (Option.some.inj heq).symm⟩
      · rintro ⟨k, w, hk, hw, rfl⟩
        obtain rfl : id = k := by simpa using hk
        rw [Option.some.inj (hid.symm.trans hw)]
    · rw [hinfo, AList.lookup_insert_ne hj, h.info]
      simp [getElem?_snoc, hj]
  case addr =>
    intro ip j
    rw [haddr]
    by_cases hip : ip = info.ip
    · subst hip
      rw [AList.lookup_insert]
      constructor
      · intro heq
        obtain rfl := Option.some.inj heq
        exact ⟨id, info, by simp, hid, rfl⟩
      · rintro ⟨k, w, hk, hw, hwip⟩
        have haddr := (hinv.entry hw).addr
        rw [hwip, (hinv.entry hid).addr] at haddr
        obtain rfl := Option.some.inj haddr
        rcases (getElem?_snoc j).mp hk with hk | ⟨rfl, -⟩
        · exact absurd (List.mem_of_getElem? hk) hout
        · rfl
    · rw [AList.lookup_insert_ne hip, h.addr]
      constructor
      · rintro ⟨k, w, hk, hw, hwip⟩
        exact ⟨k, w, (getElem?_snoc j).mpr (.inl hk), hw, hwip⟩
      · rintro ⟨k, w, hk, hw, rfl⟩
        rcases (getElem?_snoc j).mp hk with hk | ⟨-, rfl⟩
        · exact ⟨k, w, hk, hw, rfl⟩
        · rw [Option.some.inj (hid.symm.trans hw)] at hip
          exact absurd rfl hip
  case random => rw [hrandom, h.random, List.length_append, List.length_singleton, List.range_succ]
  case tried =>
    intro slot j
    rw [htried]
    by_cases hslot : info.fInTried = true ∧ slot = triedSlot hashes s info.toCService
    · have hown : s.vvTried slot = some id := hinv.tried.mpr ⟨info, hid, hslot.1, hslot.2.symm⟩
      rw [if_pos hslot]
      constructor
      · intro heq
        obtain rfl := Option.some.inj heq
        exact ⟨id, by simp, hown⟩
      · rintro ⟨k, hk, hk'⟩
        obtain rfl := Option.some.inj (hown.symm.trans hk')
        rcases (getElem?_snoc j).mp hk with hk | ⟨rfl, -⟩
        · exact absurd (List.mem_of_getElem? hk) hout
        · rfl
    · rw [if_neg hslot, h.tried]
      constructor
      · rintro ⟨k, hk, hk'⟩
        exact ⟨k, (getElem?_snoc j).mpr (.inl hk), hk'⟩
      · rintro ⟨k, hk, hk'⟩
        rcases (getElem?_snoc j).mp hk with hk | ⟨-, rfl⟩
        · exact ⟨k, hk, hk'⟩
        · obtain ⟨w, hw, hwtried, hwslot⟩ := hinv.tried.mp hk'
          obtain rfl := Option.some.inj (hid.symm.trans hw)
          exact absurd ⟨hwtried, hwslot.symm⟩ hslot
  case new =>
    intro slot j
    rw [hnew, h.new]
    simp
  case size =>
    rw [hinfo, AList.entries_insert_of_notMem (AList.lookup_eq_none.mp hfresh), List.length_cons,
      h.size, List.length_append, List.length_singleton]
  case countTried =>
    have hkind : (copyOf s ∅ ids.length id info).fInTried = info.fInTried := rfl
    rw [hinfo, count_insert_new _ hfresh, hkind, h.countTried, List.countP_append,
      List.countP_singleton]
    cases hb : info.fInTried with
    | true => simp [triedAt, hid, hb]
    | false => simp [triedAt, hid, hb]

theorem reading_eq {α : Type} {r : Reader UInt8 α} {w rest : List UInt8} {a : α}
    (h : Reads r w a) (s : CAddrMan) (f : α → List UInt8 → Loaded) :
    s.reading r (w ++ rest) f = f a rest := by
  rw [reading, h rest]

structure Entries (s : CAddrMan) (fInTried : Bool) (l : List (Σ _ : ℕ, CAddrInfo)) : Prop where
  nodup : l.NodupKeys
  lookup : ∀ p ∈ l, s.mapInfo.lookup p.1 = some p.2
  kind : ∀ p ∈ l, p.2.fInTried = fInTried
  typed : ∀ p ∈ l, p.2.Typed

theorem Entries.tail {p : Σ _ : ℕ, CAddrInfo} {l : List (Σ _ : ℕ, CAddrInfo)} {f : Bool}
    (h : Entries s f (p :: l)) : Entries s f l where
  nodup := (List.nodupKeys_cons.mp h.nodup).2
  lookup q hq := h.lookup q (List.mem_cons_of_mem p hq)
  kind q hq := h.kind q (List.mem_cons_of_mem p hq)
  typed q hq := h.typed q (List.mem_cons_of_mem p hq)

theorem Entries.fresh {p : Σ _ : ℕ, CAddrInfo} {l : List (Σ _ : ℕ, CAddrInfo)} {f : Bool}
    (h : Entries s f (p :: l)) (hout : ∀ k ∈ (p :: l).keys, k ∉ ids) :
    ∀ k ∈ l.keys, k ∉ ids ++ [p.1] := by
  intro k hk hmem
  rcases List.mem_append.mp hmem with hmem | hmem
  · exact hout k (List.mem_cons_of_mem p.1 hk) hmem
  · obtain rfl := List.mem_singleton.mp hmem
    exact (List.nodupKeys_cons.mp h.nodup).1 hk

theorem Copied.restored (h : Copied s ids ∅ t) :
    { info.restored .default with nRandomPos := t.vRandom.length, fInTried := info.fInTried } =
      copyOf s ∅ ids.length id info := by
  rw [copyOf_empty, h.random, List.length_range]
  simp [CAddrInfo.restored, CAddrInfo.default, CAddrInfo.of]

theorem readNewEntries_eq (hinv : Inv hashes ∅ 0 s) (hver : IsInt 4 nVersion) (rest : List UInt8) :
    ∀ {l : List (Σ _ : ℕ, CAddrInfo)} {ids : List ℕ} {t : CAddrMan}, Copied s ids ∅ t →
      Entries s false l → (∀ k ∈ l.keys, k ∉ ids) →
      ∃ t', readNewEntries hashes true l.length ids.length t
          (l.flatMap (fun p => p.2.write nVersion) ++ rest) = .done t' rest ∧
        Copied s (ids ++ l.keys) ∅ t' ∧ t'.nNew = t.nNew ∧ t'.nTried = t.nTried := by
  intro l
  induction l with
  | nil =>
    intro ids t h _ _
    exact ⟨t, rfl, by simpa using h, rfl, rfl⟩
  | cons p l ih =>
    intro ids t h hl hout
    obtain ⟨id, info⟩ := p
    have hid : s.mapInfo.lookup id = some info := hl.lookup _ List.mem_cons_self
    have hkind : info.fInTried = false := hl.kind _ List.mem_cons_self
    have hfresh := h.lookup_length
    -- the entry as it has been read into a new place
    let read : CAddrInfo := info.restored .default
    let t₁ : CAddrMan := (t.setInfo ids.length .default).putNew hashes true ids.length read
    have hcopied : Copied s (ids ++ [id]) ∅ t₁ := by
      refine h.snoc hinv (hout id (by simp)) hid rfl ?_ rfl rfl ?_ rfl
      · rw [← h.restored, hkind]
        exact AList.insert_insert t.mapInfo
      · intro slot
        rw [if_neg (by simp [hkind])]
        rfl
    obtain ⟨t', hread, h', hframe⟩ := ih hcopied hl.tail (hl.fresh hout)
    refine ⟨t', ?_, ?_, hframe⟩
    · rw [List.length_cons, readNewEntries, List.flatMap_cons, List.append_assoc, hfresh,
        Option.getD_none, reading_eq (CAddrInfo.reads (hl.typed _ List.mem_cons_self) hver .default)]
      rw [List.length_append] at hread
      exact hread
    · rw [List.keys_cons]
      rwa [List.append_assoc] at h'

theorem readTriedEntries_eq (hinv : Inv hashes ∅ 0 s) (hver : IsInt 4 nVersion)
    (rest : List UInt8) : ∀ {l : List (Σ _ : ℕ, CAddrInfo)} {ids : List ℕ} {t : CAddrMan},
      Copied s ids ∅ t → t.nIdCount = ids.length → Entries s true l → (∀ k ∈ l.keys, k ∉ ids) →
      ∃ t', readTriedEntries hashes l.length 0 t
          (l.flatMap (fun p => p.2.write nVersion) ++ rest) = .done t' rest ∧
        Copied s (ids ++ l.keys) ∅ t' ∧ t'.nIdCount = (ids ++ l.keys).length ∧
        t'.nNew = t.nNew ∧ t'.nTried = t.nTried := by
  intro l
  induction l with
  | nil =>
    intro ids t h hcount _ _
    refine ⟨{ t with nTried := t.nTried - (0 : ℕ) }, rfl, ?_, by simpa using hcount, rfl,
      Int.sub_zero t.nTried⟩
    rw [List.keys_nil, List.append_nil]
    exact ⟨h.nKey, h.info, h.addr, h.random, h.tried, h.new, h.size, h.countTried⟩
  | cons p l ih =>
    intro ids t h hcount hl hout
    obtain ⟨id, info⟩ := p
    have hid : s.mapInfo.lookup id = some info := hl.lookup _ List.mem_cons_self
    have hkind : info.fInTried = true := hl.kind _ List.mem_cons_self
    have hfresh := h.lookup_length
    have hidout : id ∉ ids := hout id (by simp)
    have hslot : t.triedSlot hashes info.toCService = s.triedSlot hashes info.toCService := by
      simp only [triedSlot, h.nKey]
    -- nobody else has the slot
    have hfree : t.vvTried (s.triedSlot hashes info.toCService) = none := by
      cases hv : t.vvTried (s.triedSlot hashes info.toCService) with
      | none => rfl
      | some j =>
        obtain ⟨k, hk, hkslot⟩ := (h.tried _ _).mp hv
        have hown := hinv.tried.mpr ⟨info, hid, hkind, rfl⟩
        obtain rfl := Option.some.inj (hown.symm.trans hkslot)
        exact absurd (List.mem_of_getElem? hk) hidout
    let read : CAddrInfo := info.restored .default
    let t₁ : CAddrMan := t.putTried (s.triedSlot hashes info.toCService) read
    have hcopied : Copied s (ids ++ [id]) ∅ t₁ := by
      refine h.snoc hinv hidout hid rfl ?_ ?_ ?_ ?_ rfl
      · rw [← h.restored, hkind, ← hcount]
        rfl
      · rw [← hcount]
        rfl
      · rw [← hcount]
        rfl
      · intro slot
        show Function.update t.vvTried _ (some t.nIdCount) slot = _
        rw [Function.update_apply, hcount]
        simp [hkind]
    have hcount' : t₁.nIdCount = (ids ++ [id]).length := by
      rw [List.length_append, List.length_singleton, ← hcount]
      rfl
    obtain ⟨t', hread, h', hframe⟩ := ih hcopied hcount' hl.tail (hl.fresh hout)
    refine ⟨t', ?_, ?_⟩
    · rw [List.length_cons, readTriedEntries, List.flatMap_cons, List.append_assoc,
        reading_eq (CAddrInfo.reads (hl.typed _ List.mem_cons_self) hver .default)]
      have hslot' : t.triedSlot hashes read.toCService = s.triedSlot hashes info.toCService := hslot
      show (if t.vvTried (t.triedSlot hashes read.toCService) = none then
        readTriedEntries hashes l.length 0 (t.putTried (t.triedSlot hashes read.toCService) read) _
        else _) = _
      rw [hslot', if_pos hfree]
      exact hread
    · rw [List.keys_cons]
      rw [List.append_assoc] at h' hframe
      exact ⟨h', hframe⟩

/-! ### The slots of the new table -/

variable {slot : NewSlot}

theorem copyOf_insert_ne (h : s.vvNew slot ≠ some id) (done : Finset NewSlot) (j : ℕ)
    (info : CAddrInfo) : copyOf s (insert slot done) j id info = copyOf s done j id info := by
  simp only [copyOf, inter_insert_ne h done]

theorem Copied.skip (h : Copied s ids done t) (hnone : s.vvNew slot = none) :
    Copied s ids (insert slot done) t := by
  have hne : ∀ id, s.vvNew slot ≠ some id := fun id => by simp [hnone]
  refine ⟨h.nKey, fun j info' => ?_, h.addr, h.random, h.tried, fun slot' j => ?_, h.size,
    h.countTried⟩
  · simp only [copyOf_insert_ne (hne _)]
    exact h.info j info'
  · rw [h.new]
    by_cases hslot : slot' = slot
    · subst hslot
      simp [hnone]
    · simp [hslot]

theorem Copied.put (h : Copied s ids done t) (hinv : Inv hashes ∅ 0 s) (hnodup : ids.Nodup)
    (hslot : s.vvNew slot = some id) (hout : slot ∉ done) {j : ℕ} (hj : ids[j]? = some id)
    (hcount : (j : ℤ) < t.nNew) :
    ∃ t', t.putPosition hashes true slot.1 j = t' ∧ Copied s ids (insert slot done) t' ∧
      t'.nNew = t.nNew ∧ t'.nTried = t.nTried ∧ t'.nIdCount = t.nIdCount := by
  obtain ⟨info, hid, hkind, hown⟩ := hinv.new hslot
  have hlookup : t.mapInfo.lookup j = some (copyOf s done j id info) :=
    (h.info _ _).mpr ⟨id, info, hj, hid, rfl⟩
  -- the slot is free, and the entry has not all its references yet
  have hfree : t.vvNew slot = none := by
    cases hv : t.vvNew slot with
    | none => rfl
    | some k =>
      obtain ⟨-, -, hdone, -⟩ := (h.new _ _).mp hv
      exact absurd hdone hout
  have hcard : (slots s.vvNew id ∩ insert slot done).card =
      (slots s.vvNew id ∩ done).card + 1 := card_inter_insert hslot hout
  have hroom : (copyOf s done j id info).nRefCount < ADDRMAN_NEW_BUCKETS_PER_ADDRESS := by
    have hle : (slots s.vvNew id ∩ insert slot done).card ≤ (slots s.vvNew id).card :=
      Finset.card_le_card Finset.inter_subset_left
    have hrefs := (hinv.entry hid).refs
    have hmax := (hinv.entry hid).max
    show ((slots s.vvNew id ∩ done).card : ℤ) < _
    omega
  have hput : t.putPosition hashes true slot.1 j = t.enterNew slot j (copyOf s done j id info)
      ((copyOf s done j id info).nRefCount + 1) := by
    have hown' : t.newSlotIn hashes (copyOf s done j id info).toCService slot.1 = slot := by
      simp only [newSlotIn, h.nKey]
      exact hown
    rw [putPosition, if_pos ⟨Int.natCast_nonneg j, hcount⟩, Int.toNat_natCast, hlookup,
      Option.getD_some]
    simp only [true_and, slot.1.isLt, dif_pos]
    rw [hown', if_pos ⟨hfree, hroom⟩]
  refine ⟨_, hput, ?_, rfl, rfl, rfl⟩
  have hcopy : { copyOf s done j id info with
      nRefCount := (copyOf s done j id info).nRefCount + 1 } =
        copyOf s (insert slot done) j id info := by
    simp only [copyOf, hcard, Nat.cast_add, Nat.cast_one]
  have hmap : (t.enterNew slot j (copyOf s done j id info)
      ((copyOf s done j id info).nRefCount + 1)).mapInfo =
        t.mapInfo.insert j (copyOf s (insert slot done) j id info) := by
    rw [← hcopy]
    rfl
  constructor
  case nKey => exact h.nKey
  case info =>
    intro k info'
    rw [hmap]
    by_cases hk : k = j
    · subst hk
      rw [AList.lookup_insert]
      constructor
      · intro heq
        exact ⟨id, info, hj, hid, (Option.some.inj heq).symm⟩
      · rintro ⟨id', w, hid', hw, rfl⟩
        obtain rfl := Option.some.inj (hj.symm.trans hid')
        rw [Option.some.inj (hid.symm.trans hw)]
    · rw [AList.lookup_insert_ne hk, h.info]
      -- another entry is not in this slot
      have hother : ∀ id', ids[k]? = some id' → s.vvNew slot ≠ some id' := by
        intro id' hid' heq
        obtain rfl := Option.some.inj (hslot.symm.trans heq)
        exact hk ((List.getElem?_inj (List.getElem?_eq_some_iff.mp hid').1 hnodup).mp
          (hid'.trans hj.symm))
      constructor
      · rintro ⟨id', w, hid', hw, rfl⟩
        exact ⟨id', w, hid', hw, (copyOf_insert_ne (hother id' hid') done k w).symm⟩
      · rintro ⟨id', w, hid', hw, rfl⟩
        exact ⟨id', w, hid', hw, copyOf_insert_ne (hother id' hid') done k w⟩
  case addr => exact h.addr
  case random => exact h.random
  case tried => exact h.tried
  case new =>
    intro slot' k
    show Function.update t.vvNew slot (some j) slot' = some k ↔ _
    by_cases hs : slot' = slot
    · subst hs
      rw [Function.update_self]
      constructor
      · intro heq
        obtain rfl := Option.some.inj heq
        exact ⟨id, hj, Finset.mem_insert_self _ _, hslot⟩
      · rintro ⟨id', hid', -, hs'⟩
        obtain rfl := Option.some.inj (hslot.symm.trans hs')
        rw [(List.getElem?_inj (List.getElem?_eq_some_iff.mp hj).1 hnodup).mp (hj.trans hid'.symm)]
    · rw [Function.update_of_ne hs, h.new]
      simp [hs]
  case size =>
    rw [hmap, ← h.size]
    have hsame := count_insert_same (v := copyOf s (insert slot done) j id info) (fun _ => true)
      hlookup rfl
    simpa [count] using hsame
  case countTried =>
    rw [hmap, ← h.countTried]
    exact count_insert_same _ hlookup rfl

/-- The entries of the new table have numbers that are written and read. -/
def Numbered (s : CAddrMan) (ids : List ℕ) (mapUnkIds : AList fun _ : ℕ => ℕ) : Prop :=
  ∀ slot id, s.vvNew slot = some id → ∃ j : ℕ, mapUnkIds.lookup id = some j ∧
    ids[j]? = some id ∧ (j : ℤ) < s.nNew ∧ IsInt 4 j

variable {mapUnkIds : AList fun _ : ℕ => ℕ}

theorem readPositions_eq (hinv : Inv hashes ∅ 0 s) (hnodup : ids.Nodup)
    (hnum : Numbered s ids mapUnkIds) (bucket : Fin ADDRMAN_NEW_BUCKET_COUNT) (rest : List UInt8) :
    ∀ {L : List (Fin ADDRMAN_BUCKET_SIZE)} {done : Finset NewSlot} {t : CAddrMan}, L.Nodup →
      Copied s ids done t → t.nNew = s.nNew → (∀ i ∈ L, (bucket, i) ∉ done) →
      ∃ t' done', readPositions hashes true bucket
          (L.filterMap fun i => s.vvNew (bucket, i)).length t
          ((L.filterMap fun i => s.vvNew (bucket, i)).flatMap
            (fun nId => writeInt 4 ((mapUnkIds.lookup nId).getD 0 : ℕ)) ++ rest) = .done t' rest ∧
        Copied s ids done' t' ∧
        (∀ slot : NewSlot, slot ∈ done' ↔ slot ∈ done ∨ (slot.1 = bucket ∧ slot.2 ∈ L)) ∧
        t'.nNew = t.nNew ∧ t'.nTried = t.nTried ∧ t'.nIdCount = t.nIdCount := by
  intro L
  induction L with
  | nil =>
    intro done t _ h _ _
    exact ⟨t, done, rfl, h, by simp, rfl, rfl, rfl⟩
  | cons i L ih =>
    intro done t hL h hnNew hout
    obtain ⟨hi, hL'⟩ := List.nodup_cons.mp hL
    have hout' : ∀ i' ∈ L, (bucket, i') ∉ insert (bucket, i) done := by
      intro i' hi' hmem
      rcases Finset.mem_insert.mp hmem with heq | hmem
      · exact hi ((Prod.mk.inj heq).2 ▸ hi')
      · exact hout i' (List.mem_cons_of_mem i hi') hmem
    have hin : ∀ done' : Finset NewSlot, (∀ slot : NewSlot, slot ∈ done' ↔
        slot ∈ insert (bucket, i) done ∨ (slot.1 = bucket ∧ slot.2 ∈ L)) →
        ∀ slot : NewSlot, slot ∈ done' ↔
          slot ∈ done ∨ (slot.1 = bucket ∧ slot.2 ∈ i :: L) := by
      intro done' hdone' slot
      rw [hdone', Finset.mem_insert, List.mem_cons, Prod.ext_iff]
      tauto
    cases hslot : s.vvNew (bucket, i) with
    | none =>
      obtain ⟨t', done', hread, h', hdone', hframe⟩ := ih hL' (h.skip hslot) hnNew hout'
      have hfilter : (i :: L).filterMap (fun i => s.vvNew (bucket, i)) =
          L.filterMap fun i => s.vvNew (bucket, i) := List.filterMap_cons_none hslot
      refine ⟨t', done', ?_, h', hin done' hdone', hframe⟩
      rw [hfilter]
      exact hread
    | some id =>
      obtain ⟨j, hj, hids, hless, hint⟩ := hnum _ _ hslot
      obtain ⟨t₁, hput, h₁, hnNew₁, hnTried₁, hnIdCount₁⟩ := h.put hinv hnodup hslot
        (hout i List.mem_cons_self) hids (hnNew ▸ hless)
      obtain ⟨t', done', hread, h', hdone', hnNew', hnTried', hnIdCount'⟩ :=
        ih hL' h₁ (hnNew₁.trans hnNew) hout'
      refine ⟨t', done', ?_, h', hin done' hdone', hnNew'.trans hnNew₁, hnTried'.trans hnTried₁,
        hnIdCount'.trans hnIdCount₁⟩
      have hfilter : (i :: L).filterMap (fun i => s.vvNew (bucket, i)) =
          id :: L.filterMap fun i => s.vvNew (bucket, i) := List.filterMap_cons_some hslot
      rw [hfilter, List.length_cons, readPositions, List.flatMap_cons,
        List.append_assoc, hj, Option.getD_some, reading_eq (reads_int hint), hput]
      exact hread

theorem readBuckets_eq (hinv : Inv hashes ∅ 0 s) (hnodup : ids.Nodup)
    (hnum : Numbered s ids mapUnkIds) (rest : List UInt8) :
    ∀ {k b : ℕ} {done : Finset NewSlot} {t : CAddrMan}, b + k = ADDRMAN_NEW_BUCKET_COUNT →
      Copied s ids done t → t.nNew = s.nNew → (∀ slot : NewSlot, slot ∈ done → slot.1.val < b) →
      ∃ t' done', readBuckets hashes true k b t
          (((List.finRange ADDRMAN_NEW_BUCKET_COUNT).drop b).flatMap (s.writeBucket mapUnkIds) ++
            rest) = .done t' rest ∧
        Copied s ids done' t' ∧
        (∀ slot : NewSlot, slot ∈ done' ↔ slot ∈ done ∨ b ≤ slot.1.val) ∧
        t'.nNew = t.nNew ∧ t'.nTried = t.nTried ∧ t'.nIdCount = t.nIdCount := by
  intro k
  induction k with
  | zero =>
    intro b done t hb h _ _
    refine ⟨t, done, ?_, h, fun slot => ?_, rfl, rfl, rfl⟩
    · have hdrop : (List.finRange ADDRMAN_NEW_BUCKET_COUNT).drop b = [] :=
        List.drop_eq_nil_of_le (by rw [List.length_finRange]; omega)
      rw [hdrop]
      rfl
    · have hlt := slot.1.isLt
      have hnot : ¬ b ≤ slot.1.val := by omega
      simp [hnot]
  | succ k ih =>
    intro b done t hb h hnNew hbelow
    have hlt : b < ADDRMAN_NEW_BUCKET_COUNT := by omega
    have hdrop : (List.finRange ADDRMAN_NEW_BUCKET_COUNT).drop b =
        ⟨b, hlt⟩ :: (List.finRange ADDRMAN_NEW_BUCKET_COUNT).drop (b + 1) := by
      rw [List.drop_eq_getElem_cons (by rw [List.length_finRange]; exact hlt),
        List.getElem_finRange]
      rfl
    have hfresh : ∀ i ∈ List.finRange ADDRMAN_BUCKET_SIZE, ((⟨b, hlt⟩, i) : NewSlot) ∉ done :=
      fun i _ hmem => absurd (hbelow _ hmem) (Nat.lt_irrefl b)
    obtain ⟨t₁, done₁, hread₁, h₁, hdone₁, hnNew₁, hnTried₁, hnIdCount₁⟩ :=
      readPositions_eq hinv hnodup hnum ⟨b, hlt⟩
        (((List.finRange ADDRMAN_NEW_BUCKET_COUNT).drop (b + 1)).flatMap
          (s.writeBucket mapUnkIds) ++ rest) (List.nodup_finRange _) h hnNew hfresh
    have hmem₁ : ∀ slot : NewSlot, slot ∈ done₁ ↔ slot ∈ done ∨ slot.1.val = b := by
      intro slot
      rw [hdone₁, Fin.ext_iff]
      simp
    obtain ⟨t', done', hread, h', hdone', hnNew', hnTried', hnIdCount'⟩ :=
      ih (b := b + 1) (by omega) h₁ (hnNew₁.trans hnNew) fun slot hslot => by
        rcases (hmem₁ slot).mp hslot with hslot | hslot
        · exact Nat.lt_succ_of_lt (hbelow slot hslot)
        · omega
    refine ⟨t', done', ?_, h', fun slot => ?_, hnNew'.trans hnNew₁, hnTried'.trans hnTried₁,
      hnIdCount'.trans hnIdCount₁⟩
    · have hsize : IsInt 4 ((s.inBucket ⟨b, hlt⟩).length : ℤ) := by
        have hle : (s.inBucket ⟨b, hlt⟩).length ≤ 64 :=
          (List.length_filterMap_le _ _).trans (List.length_finRange).le
        constructor
        · omega
        · omega
      rw [hdrop, List.flatMap_cons, readBuckets, writeBucket, List.append_assoc, List.append_assoc,
        reading_eq (reads_int hsize), Int.toNat_natCast]
      exact (andThen_eq hread₁ _).trans hread
    · have hstep : slot.1.val = b ∨ b + 1 ≤ slot.1.val ↔ b ≤ slot.1.val := by omega
      rw [hdone', hmem₁, or_assoc, hstep]

/-! ### When all has been read -/

/-- The numbers are those of all entries. -/
structure Complete (s : CAddrMan) (ids : List ℕ) : Prop where
  nodup : ids.Nodup
  mem : ∀ id, id ∈ ids ↔ id ∈ s.mapInfo

theorem Complete.perm (h : Complete s ids) : ids.Perm s.mapInfo.keys :=
  (List.perm_ext_iff_of_nodup h.nodup s.mapInfo.nodupKeys).mpr h.mem

theorem Complete.countP (h : Complete s ids) :
    ids.countP (triedAt s) = count CAddrInfo.fInTried s.mapInfo := by
  rw [h.perm.countP_eq, AList.keys, List.keys, List.countP_map, count]
  refine List.countP_congr fun p hp => ?_
  have hlookup : s.mapInfo.lookup p.1 = some p.2 := AList.mem_lookup_iff.mpr hp
  simp [triedAt, hlookup]

theorem Complete.length (h : Complete s ids) : ids.length = s.mapInfo.entries.length := by
  rw [h.perm.length_eq, AList.keys, List.keys, List.length_map]

theorem copyOf_all (hinv : Inv hashes ∅ 0 s) (hid : s.mapInfo.lookup id = some info)
    (hdone : ∀ slot, slot ∈ done) (j : ℕ) :
    copyOf s done j id info = { info with nLastTry := 0, nRandomPos := j } := by
  have hall : done = Finset.univ := Finset.eq_univ_iff_forall.mpr hdone
  have hrefs := (hinv.entry hid).refs
  simp only [copyOf, hall, Finset.inter_univ, ← hrefs]

theorem Copied.inv (h : Copied s ids done t) (hinv : Inv hashes ∅ 0 s) (hall : Complete s ids)
    (hdone : ∀ slot, slot ∈ done) (hcount : t.nIdCount = ids.length) (hnew : t.nNew = s.nNew)
    (htried : t.nTried = s.nTried) : Inv hashes ∅ 0 t := by
  have hcopy : ∀ j info', t.mapInfo.lookup j = some info' ↔ ∃ id info, ids[j]? = some id ∧
      s.mapInfo.lookup id = some info ∧
        info' = { info with nLastTry := 0, nRandomPos := (j : ℤ) } := by
    intro j info'
    rw [h.info]
    constructor
    · rintro ⟨id, info, hj, hid, rfl⟩
      exact ⟨id, info, hj, hid, copyOf_all hinv hid hdone j⟩
    · rintro ⟨id, info, hj, hid, rfl⟩
      exact ⟨id, info, hj, hid, (copyOf_all hinv hid hdone j).symm⟩
  have hexists : ∀ {j id : ℕ}, ids[j]? = some id → ∃ info, s.mapInfo.lookup id = some info := by
    intro j id hj
    have hmem := (hall.mem id).mp (List.mem_of_getElem? hj)
    exact Option.isSome_iff_exists.mp (AList.lookup_isSome.mpr hmem)
  constructor
  case entry =>
    intro j info' hlookup
    obtain ⟨id, info, hj, hid, rfl⟩ := (hcopy j info').mp hlookup
    have hok := hinv.entry hid
    have hlt : j < ids.length := (List.getElem?_eq_some_iff.mp hj).1
    have hslots : slots t.vvNew j = slots s.vvNew id := by
      ext slot
      rw [mem_slots, mem_slots, h.new]
      simp [hj, hdone]
    constructor
    case bound => exact hcount ▸ hlt
    case nonneg => exact Int.natCast_nonneg j
    case random =>
      show t.vRandom[(j : ℤ).toNat]? = some j
      rw [Int.toNat_natCast, h.random, List.getElem?_range hlt]
    case addr => exact (h.addr _ _).mpr ⟨id, info, hj, hid, rfl⟩
    case refs =>
      rw [hslots]
      exact hok.refs
    case max => exact hok.max
    case live => exact hok.live
    case success => exact hok.success
    case lastTry =>
      show 0 ≤ (0 : Int64).toInt
      decide
    case lastSuccess => exact hok.lastSuccess
  case random =>
    intro i j hi
    rw [h.random] at hi
    obtain ⟨hlt, rfl⟩ := List.getElem?_eq_some_iff.mp hi
    rw [List.length_range] at hlt
    have hj : ids[i]? = some (ids.get ⟨i, hlt⟩) := List.getElem?_eq_getElem hlt
    obtain ⟨info, hid⟩ := hexists hj
    rw [List.getElem_range]
    exact ⟨_, (hcopy i _).mpr ⟨_, info, hj, hid, rfl⟩, rfl⟩
  case addr =>
    intro ip j hlookup
    obtain ⟨id, info, hj, hid, hip⟩ := (h.addr ip j).mp hlookup
    exact ⟨_, (hcopy j _).mpr ⟨id, info, hj, hid, rfl⟩, hip⟩
  case tried =>
    intro slot j
    have hslot : ∀ addr, triedSlot hashes t addr = triedSlot hashes s addr := fun addr => by
      simp only [triedSlot, h.nKey]
    rw [h.tried]
    constructor
    · rintro ⟨id, hj, hs⟩
      obtain ⟨info, hid, hkind, hown⟩ := hinv.tried.mp hs
      exact ⟨_, (hcopy j _).mpr ⟨id, info, hj, hid, rfl⟩, hkind, (hslot _).trans hown⟩
    · rintro ⟨info', hlookup, hkind, hown⟩
      obtain ⟨id, info, hj, hid, rfl⟩ := (hcopy j info').mp hlookup
      exact ⟨id, hj, hinv.tried.mpr ⟨info, hid, hkind, (hslot _).symm.trans hown⟩⟩
  case new =>
    intro slot j hs
    obtain ⟨id, hj, -, hs⟩ := (h.new slot j).mp hs
    obtain ⟨info, hid, hkind, hown⟩ := hinv.new hs
    refine ⟨_, (hcopy j _).mpr ⟨id, info, hj, hid, rfl⟩, hkind, ?_⟩
    simp only [newSlotIn, h.nKey]
    exact hown
  case nTried => rw [htried, hinv.nTried, h.countTried, hall.countP]
  case nNew =>
    have hs := count_add_count_not CAddrInfo.fInTried s.mapInfo
    have ht := count_add_count_not CAddrInfo.fInTried t.mapInfo
    rw [h.countTried, hall.countP, h.size, hall.length] at ht
    have hnNew := hinv.nNew
    omega

/-! ### Nothing is lost -/

/-- An entry without what is kept in memory only. -/
def kept (info : CAddrInfo) : CAddrInfo := { info with nLastTry := 0, nRandomPos := 0 }

/-- The address that a slot stands for. -/
def addrAt (s : CAddrMan) (entry : Option ℕ) : Option CService :=
  (entry.bind s.mapInfo.lookup).map fun info => info.toCService

/-- Both hold the same addresses, with the same fields and references, in the same slots. -/
structure SameAddresses (s t : CAddrMan) : Prop where
  nKey : t.nKey = s.nKey
  nNew : t.nNew = s.nNew
  nTried : t.nTried = s.nTried
  stored : ∀ ip, (t.find ip).map (fun p => kept p.2) = (s.find ip).map fun p => kept p.2
  tried : ∀ slot, t.addrAt (t.vvTried slot) = s.addrAt (s.vvTried slot)
  new : ∀ slot, t.addrAt (t.vvNew slot) = s.addrAt (s.vvNew slot)

theorem Inv.find_eq_some {free : Set ℕ} {d : ℤ} (h : Inv hashes free d s) {ip : List UInt8} :
    s.find ip = some (id, info) ↔ s.mapInfo.lookup id = some info ∧ info.ip = ip := by
  constructor
  · intro hfind
    have hid := CAddrMan.find_eq_some hfind
    refine ⟨hid, ?_⟩
    unfold find at hfind
    cases haddr : s.mapAddr.lookup ip with
    | none => simp [haddr] at hfind
    | some k =>
      obtain ⟨w, hw, hip⟩ := h.addr haddr
      simp only [haddr, hw, Option.bind_eq_bind, Option.bind_some, Option.pure_def,
        Option.some.injEq, Prod.mk.injEq] at hfind
      exact hfind.2 ▸ hip
  · rintro ⟨hid, rfl⟩
    simp [find, (h.entry hid).addr, hid]

theorem addrAt_eq {entry entry' : Option ℕ}
    (hsome : ∀ j, entry' = some j ↔ ∃ id, ids[j]? = some id ∧ entry = some id)
    (hentry : ∀ id, entry = some id → id ∈ ids)
    (hcopy : ∀ j id, ids[j]? = some id → ∃ info info', s.mapInfo.lookup id = some info ∧
      t.mapInfo.lookup j = some info' ∧ info'.toCService = info.toCService) :
    t.addrAt entry' = s.addrAt entry := by
  cases hentry' : entry with
  | none =>
    have hnone : entry' = none := by
      cases he : entry' with
      | none => rfl
      | some j =>
        obtain ⟨id, -, hid⟩ := (hsome j).mp he
        exact absurd (hentry'.symm.trans hid) (by simp)
    rw [hnone]
    rfl
  | some id =>
    obtain ⟨j, hj⟩ := List.mem_iff_getElem?.mp (hentry id hentry')
    have hsome' : entry' = some j := (hsome j).mpr ⟨id, hj, hentry'⟩
    obtain ⟨info, info', hinfo, hinfo', heq⟩ := hcopy j id hj
    simp [addrAt, hsome', hinfo, hinfo', heq]

theorem Copied.same (h : Copied s ids done t) (hinv : Inv hashes ∅ 0 s) (ht : Inv hashes ∅ 0 t)
    (hall : Complete s ids) (hdone : ∀ slot, slot ∈ done) (hnew : t.nNew = s.nNew)
    (htried : t.nTried = s.nTried) : SameAddresses s t where
  nKey := h.nKey
  nNew := hnew
  nTried := htried
  stored ip := by
    cases hfind : s.find ip with
    | none =>
      have hnone : t.find ip = none := by
        cases hfind' : t.find ip with
        | none => rfl
        | some p =>
          obtain ⟨j, info'⟩ := p
          obtain ⟨hlookup, hip⟩ := ht.find_eq_some.mp hfind'
          obtain ⟨id, info, -, hid, rfl⟩ := (h.info j info').mp hlookup
          have hsome := hinv.find_eq_some.mpr ⟨hid, hip⟩
          exact absurd (hfind.symm.trans hsome) (by simp)
      rw [hnone]
    | some p =>
      obtain ⟨id, info⟩ := p
      obtain ⟨hid, hip⟩ := hinv.find_eq_some.mp hfind
      have hmem : id ∈ ids := (hall.mem id).mpr (AList.lookup_isSome.mp (by simp [hid]))
      obtain ⟨j, hj⟩ := List.mem_iff_getElem?.mp hmem
      have hlookup := (h.info j _).mpr ⟨id, info, hj, hid, rfl⟩
      have hfind' : t.find ip = some (j, copyOf s done j id info) :=
        ht.find_eq_some.mpr ⟨hlookup, hip⟩
      rw [hfind', copyOf_all hinv hid hdone j]
      rfl
  tried slot := by
    refine addrAt_eq (h.tried slot) (fun id hs => ?_) fun j id hj => ?_
    · obtain ⟨info, hid, -⟩ := hinv.tried.mp hs
      exact (hall.mem id).mpr (AList.lookup_isSome.mp (by simp [hid]))
    · have hmem := (hall.mem id).mp (List.mem_of_getElem? hj)
      obtain ⟨info, hid⟩ := Option.isSome_iff_exists.mp (AList.lookup_isSome.mpr hmem)
      exact ⟨info, _, hid, (h.info j _).mpr ⟨id, info, hj, hid, rfl⟩, rfl⟩
  new slot := by
    have hsome : ∀ j, t.vvNew slot = some j ↔ ∃ id, ids[j]? = some id ∧ s.vvNew slot = some id := by
      intro j
      rw [h.new]
      simp [hdone slot]
    refine addrAt_eq hsome (fun id hs => ?_) fun j id hj => ?_
    · obtain ⟨info, hid, -⟩ := hinv.new hs
      exact (hall.mem id).mpr (AList.lookup_isSome.mp (by simp [hid]))
    · have hmem := (hall.mem id).mp (List.mem_of_getElem? hj)
      obtain ⟨info, hid⟩ := Option.isSome_iff_exists.mp (AList.lookup_isSome.mpr hmem)
      exact ⟨info, _, hid, (h.info j _).mpr ⟨id, info, hj, hid, rfl⟩, rfl⟩

/-! ### The numbers fit -/

def newEntries (s : CAddrMan) : List (Σ _ : ℕ, CAddrInfo) :=
  (sortedEntries (· ≤ ·) s.mapInfo).filter hasRefs

/-- The entries that are written after them. -/
def triedEntries (s : CAddrMan) : List (Σ _ : ℕ, CAddrInfo) :=
  (sortedEntries (· ≤ ·) s.mapInfo).filter isTried

theorem mem_newEntries (h : Inv hashes ∅ 0 s) {p : Σ _ : ℕ, CAddrInfo} :
    p ∈ newEntries s ↔ s.mapInfo.lookup p.1 = some p.2 ∧ p.2.fInTried = false := by
  rw [newEntries, List.mem_filter, mem_sortedEntries]
  refine and_congr_right fun hid => ?_
  rw [← h.refs_iff hid]
  simp [hasRefs]

theorem mem_triedEntries {p : Σ _ : ℕ, CAddrInfo} :
    p ∈ triedEntries s ↔ s.mapInfo.lookup p.1 = some p.2 ∧ p.2.fInTried = true := by
  rw [triedEntries, List.mem_filter, mem_sortedEntries]
  rfl

theorem length_newEntries (h : Inv hashes ∅ 0 s) : ((newEntries s).length : ℤ) = s.nNew := by
  have hnNew := h.nNew
  rw [Int.add_zero] at hnNew
  rw [hnNew, newEntries, ← List.countP_eq_length_filter, (perm_sortedEntries _ _).countP_eq, count]
  congr 1
  refine List.countP_congr fun p hp => ?_
  have hid : s.mapInfo.lookup p.1 = some p.2 := AList.mem_lookup_iff.mpr hp
  have hiff := h.refs_iff hid
  simpa [hasRefs] using hiff

theorem length_triedEntries (h : Inv hashes ∅ 0 s) :
    ((triedEntries s).length : ℤ) = s.nTried := by
  rw [h.nTried, triedEntries, ← List.countP_eq_length_filter, (perm_sortedEntries _ _).countP_eq]
  rfl

theorem length_le_slots {σ : Type} [Fintype σ] [DecidableEq σ] (table : σ → Option ℕ)
    {l : List (Σ _ : ℕ, CAddrInfo)} (hnodup : l.NodupKeys)
    (hslot : ∀ k ∈ l.keys, ∃ slot, table slot = some k) : l.length ≤ Fintype.card σ := by
  have hlength : l.length = l.keys.toFinset.card := by
    rw [List.toFinset_card_of_nodup hnodup, List.keys, List.length_map]
  have hone : l.keys.toFinset.card ≤ ∑ k ∈ l.keys.toFinset, (slots table k).card := by
    rw [Finset.card_eq_sum_ones]
    exact Finset.sum_le_sum fun k hk => card_slots_pos.mpr (hslot k (List.mem_toFinset.mp hk))
  rw [hlength]
  exact hone.trans (sum_card_slots_le table _)

def readIds (s : CAddrMan) : List ℕ := (newEntries s).keys ++ (triedEntries s).keys

theorem keys_newEntries (h : Inv hashes ∅ 0 s) :
    id ∈ (newEntries s).keys ↔ ∃ info, s.mapInfo.lookup id = some info ∧ info.fInTried = false := by
  rw [List.mem_keys]
  exact exists_congr fun info => mem_newEntries h

theorem keys_triedEntries :
    id ∈ (triedEntries s).keys ↔ ∃ info, s.mapInfo.lookup id = some info ∧ info.fInTried = true := by
  rw [List.mem_keys]
  exact exists_congr fun info => mem_triedEntries

theorem nodupKeys_newEntries (s : CAddrMan) : (newEntries s).NodupKeys :=
  (nodupKeys_sortedEntries s.mapInfo).sublist List.filter_sublist

theorem nodupKeys_triedEntries (s : CAddrMan) : (triedEntries s).NodupKeys :=
  (nodupKeys_sortedEntries s.mapInfo).sublist List.filter_sublist

theorem notMem_keys_newEntries (h : Inv hashes ∅ 0 s) (hid : id ∈ (triedEntries s).keys) :
    id ∉ (newEntries s).keys := by
  intro hid'
  obtain ⟨info, hlookup, hnew⟩ := (keys_newEntries h).mp hid'
  obtain ⟨info', hlookup', htried⟩ := keys_triedEntries.mp hid
  obtain rfl := Option.some.inj (hlookup.symm.trans hlookup')
  simp [hnew] at htried

theorem complete_readIds (h : Inv hashes ∅ 0 s) : Complete s (readIds s) where
  nodup := by
    refine List.nodup_append.mpr ⟨nodupKeys_newEntries s, nodupKeys_triedEntries s, ?_⟩
    rintro k hk k' hk' rfl
    exact notMem_keys_newEntries h hk' hk
  mem k := by
    rw [readIds, List.mem_append, keys_newEntries h, keys_triedEntries]
    constructor
    · rintro (⟨info, hk, -⟩ | ⟨info, hk, -⟩)
      · exact AList.lookup_isSome.mp (by simp [hk])
      · exact AList.lookup_isSome.mp (by simp [hk])
    · intro hk
      obtain ⟨info, hinfo⟩ := Option.isSome_iff_exists.mp (AList.lookup_isSome.mpr hk)
      cases hkind : info.fInTried with
      | false => exact .inl ⟨info, hinfo, hkind⟩
      | true => exact .inr ⟨info, hinfo, hkind⟩

theorem nNew_le (h : Inv hashes ∅ 0 s) : 0 ≤ s.nNew ∧ s.nNew ≤ 65536 := by
  have hle : (newEntries s).length ≤ Fintype.card NewSlot := by
    refine length_le_slots s.vvNew (nodupKeys_newEntries s) fun k hk => ?_
    obtain ⟨info, hinfo, hnew⟩ := (keys_newEntries h).mp hk
    have hrefs := (h.entry hinfo).refs
    have hlive := (h.refs_iff hinfo).mpr hnew
    exact card_slots_pos.mp (by omega)
  have hcard : Fintype.card NewSlot = 65536 := by
    rw [Fintype.card_prod, Fintype.card_fin, Fintype.card_fin]
    rfl
  have hlength := length_newEntries h
  constructor
  · omega
  · omega

theorem nTried_le (h : Inv hashes ∅ 0 s) : 0 ≤ s.nTried ∧ s.nTried ≤ 16384 := by
  have hle : (triedEntries s).length ≤ Fintype.card TriedSlot := by
    refine length_le_slots s.vvTried (nodupKeys_triedEntries s) fun k hk => ?_
    obtain ⟨info, hinfo, htried⟩ := keys_triedEntries.mp hk
    exact ⟨_, h.tried.mpr ⟨info, hinfo, htried, rfl⟩⟩
  have hcard : Fintype.card TriedSlot = 16384 := by
    rw [Fintype.card_prod, Fintype.card_fin, Fintype.card_fin]
    rfl
  have hlength := length_triedEntries h
  constructor
  · omega
  · omega

theorem numbered (h : Inv hashes ∅ 0 s)
    (hids : ∀ p ∈ newEntries s,
      mapUnkIds.lookup p.1 = some (0 + ((newEntries s).map Sigma.fst).idxOf p.1)) :
    Numbered s (readIds s) mapUnkIds := by
  intro slot id hslot
  obtain ⟨info, hid, hkind, -⟩ := h.new hslot
  have hp : (⟨id, info⟩ : Σ _ : ℕ, CAddrInfo) ∈ newEntries s := (mem_newEntries h).mpr ⟨hid, hkind⟩
  have hkey : id ∈ (newEntries s).keys := List.mem_keys_of_mem hp
  have hlt : (newEntries s).keys.idxOf id < (newEntries s).length := by
    have hidx := List.idxOf_lt_length_of_mem hkey
    rwa [List.keys, List.length_map] at hidx
  have hlength := length_newEntries h
  obtain ⟨-, hle⟩ := nNew_le h
  refine ⟨(newEntries s).keys.idxOf id, ?_, ?_, by omega, by omega, by omega⟩
  · rw [hids _ hp, Nat.zero_add]
    rfl
  · rw [readIds, List.getElem?_append_left (by rwa [List.keys, List.length_map]),
      List.getElem?_idxOf hkey]

theorem prune_eq (h : Inv hashes ∅ 0 t) : ∀ l : List ℕ, prune l t = some t := by
  intro l
  induction l with
  | nil => rfl
  | cons n l ih =>
    rw [prune]
    cases hn : t.mapInfo.lookup n with
    | none => exact ih
    | some info =>
      have hlive : ¬ (info.fInTried = false ∧ info.nRefCount = 0) :=
        fun hdead => (h.refs_iff hn).mpr hdead.1 hdead.2
      simp only [if_neg hlive]
      exact ih

theorem copied_start (s : CAddrMan) {t : CAddrMan} (hkey : t.nKey = s.nKey)
    (hinfo : t.mapInfo = ∅) (haddr : t.mapAddr = ∅) (hrandom : t.vRandom = [])
    (htried : ∀ slot, t.vvTried slot = none) (hnew : ∀ slot, t.vvNew slot = none) :
    Copied s [] ∅ t where
  nKey := hkey
  info j info' := by simp [hinfo]
  addr ip j := by simp [haddr]
  random := hrandom
  tried slot j := by simp [htried slot]
  new slot j := by simp [hnew slot]
  size := by
    rw [hinfo]
    rfl
  countTried := by
    rw [hinfo]
    rfl

variable (nVersion) in
theorem Inv.reload (h : Inv hashes ∅ 0 s) (hver : IsInt 4 nVersion)
    (htyped : ∀ id info, s.mapInfo.lookup id = some info → info.Typed) (nKey nKeyDrawn : UInt256)
    (rest : List UInt8) : ∃ bytes, s.serialize nVersion = some bytes ∧
      ∃ t, (of nKey).unserialize hashes nKeyDrawn (bytes ++ rest) = .done t rest ∧
        SameAddresses s t ∧ Inv hashes ∅ 0 t := by
  have hnNew := nNew_le h
  have hnTried := nTried_le h
  have hlengthNew := length_newEntries h
  have hlengthTried := length_triedEntries h
  -- what is written
  obtain ⟨mapUnkIds, hwriteNew, -, hids⟩ := writeNew_eq s nVersion
    (sortedEntries (· ≤ ·) s.mapInfo) 0 ∅ []
    (nodupKeys_sortedEntries s.mapInfo) (by rw [Nat.zero_add]; exact hlengthNew.le)
  have hwriteTried := writeTried_eq s nVersion (sortedEntries (· ≤ ·) s.mapInfo) 0 []
    (by rw [Nat.zero_add]; exact hlengthTried.le)
  have hserialize : s.serialize nVersion = some ([1] ++ ([32] ++ (writeHash s.nKey ++
      (writeInt 4 s.nNew ++ (writeInt 4 s.nTried ++ (writeInt 4 (flipped ADDRMAN_NEW_BUCKET_COUNT) ++
        (((newEntries s).flatMap fun p => p.2.write nVersion) ++
          (((triedEntries s).flatMap fun p => p.2.write nVersion) ++
            (List.finRange ADDRMAN_NEW_BUCKET_COUNT).flatMap (s.writeBucket mapUnkIds))))))))) := by
    simp only [serialize, hwriteNew, hwriteTried, Option.bind_eq_bind, Option.bind_some,
      List.nil_append]
    rfl
  refine ⟨_, hserialize, ?_⟩
  -- the new entries, the tried ones and the new table are read, one after the other
  let t₀ : CAddrMan := { (of nKey).clear nKeyDrawn with
    nKey := s.nKey
    nNew := s.nNew
    nTried := s.nTried }
  have hcopied₀ : Copied s [] ∅ t₀ :=
    copied_start s rfl rfl rfl rfl (fun _ => rfl) fun _ => rfl
  have hentriesNew : Entries s false (newEntries s) := {
    nodup := nodupKeys_newEntries s
    lookup := fun p hp => ((mem_newEntries h).mp hp).1
    kind := fun p hp => ((mem_newEntries h).mp hp).2
    typed := fun p hp => htyped _ _ ((mem_newEntries h).mp hp).1 }
  have hentriesTried : Entries s true (triedEntries s) := {
    nodup := nodupKeys_triedEntries s
    lookup := fun p hp => (mem_triedEntries.mp hp).1
    kind := fun p hp => (mem_triedEntries.mp hp).2
    typed := fun p hp => htyped _ _ (mem_triedEntries.mp hp).1 }
  obtain ⟨t₁, hread₁, hcopied₁, hnNew₁, hnTried₁⟩ := readNewEntries_eq h hver
    (((triedEntries s).flatMap fun p => p.2.write nVersion) ++
      ((List.finRange ADDRMAN_NEW_BUCKET_COUNT).flatMap (s.writeBucket mapUnkIds) ++ rest))
    hcopied₀ hentriesNew fun _ _ => List.not_mem_nil
  rw [List.nil_append] at hcopied₁
  have hcount₁ : t₁.nNew.toNat = (newEntries s).keys.length := by
    rw [hnNew₁, List.keys, List.length_map]
    show s.nNew.toNat = _
    omega
  obtain ⟨t₂, hread₂, hcopied₂, hnIdCount₂, hnNew₂, hnTried₂⟩ := readTriedEntries_eq h hver
    ((List.finRange ADDRMAN_NEW_BUCKET_COUNT).flatMap (s.writeBucket mapUnkIds) ++ rest)
    (t := { t₁ with nIdCount := t₁.nNew.toNat })
    ⟨hcopied₁.nKey, hcopied₁.info, hcopied₁.addr, hcopied₁.random, hcopied₁.tried, hcopied₁.new,
      hcopied₁.size, hcopied₁.countTried⟩
    hcount₁ hentriesTried fun k hk => notMem_keys_newEntries h hk
  obtain ⟨t₃, done, hread₃, hcopied₃, hdone, hnNew₃, hnTried₃, hnIdCount₃⟩ :=
    readBuckets_eq h (complete_readIds h).nodup (numbered h hids) rest (k := ADDRMAN_NEW_BUCKET_COUNT)
      (b := 0) (Nat.zero_add _) hcopied₂ (hnNew₂.trans hnNew₁) (fun slot hslot => by simp at hslot)
  rw [List.drop_zero] at hread₃
  have hall : ∀ slot, slot ∈ done := fun slot => (hdone slot).mpr (.inr (Nat.zero_le _))
  have hnew : t₃.nNew = s.nNew := hnNew₃.trans (hnNew₂.trans hnNew₁)
  have htried : t₃.nTried = s.nTried := hnTried₃.trans (hnTried₂.trans hnTried₁)
  have hinv : Inv hashes ∅ 0 t₃ := hcopied₃.inv h (complete_readIds h) hall
    (hnIdCount₃.trans hnIdCount₂) hnew htried
  refine ⟨t₃, ?_, hcopied₃.same h hinv (complete_readIds h) hall hnew htried, hinv⟩
  have hintNew : IsInt 4 s.nNew := ⟨by omega, by omega⟩
  have hintTried : IsInt 4 s.nTried := ⟨by omega, by omega⟩
  have hflipped : flipped (flipped ADDRMAN_NEW_BUCKET_COUNT) = ADDRMAN_NEW_BUCKET_COUNT := by
    decide
  have hintFlipped : IsInt 4 (flipped ADDRMAN_NEW_BUCKET_COUNT) := by decide
  simp only [unserialize, List.append_assoc]
  rw [reading_eq (Reads.next 1), reading_eq (Reads.next 32), if_neg (by decide),
    reading_eq (reads_hash s.nKey), reading_eq (reads_int hintNew),
    reading_eq (reads_int hintTried), reading_eq (reads_int hintFlipped)]
  have hnewCount : s.nNew.toNat = (newEntries s).length := by omega
  have htriedCount₁ : t₁.nTried.toNat = (triedEntries s).length := by
    rw [hnTried₁]
    show s.nTried.toNat = _
    omega
  have hsign : ¬ t₁.nNew < 0 := by
    rw [hnNew₁]
    exact not_lt.mpr hnNew.1
  have hbuckets : (if (1 : UInt8) ≠ 0 then flipped (flipped ADDRMAN_NEW_BUCKET_COUNT)
      else flipped ADDRMAN_NEW_BUCKET_COUNT) = (ADDRMAN_NEW_BUCKET_COUNT : ℤ) := by
    rw [if_pos (by decide), hflipped]
  simp only [hbuckets, hnewCount, and_self, decide_true, Int.toNat_natCast]
  refine (andThen_eq hread₁ _).trans ?_
  rw [if_neg hsign, htriedCount₁]
  refine (andThen_eq hread₂ _).trans ((andThen_eq hread₃ _).trans ?_)
  rw [prune_eq hinv]

end CAddrMan

end Stonecoin
