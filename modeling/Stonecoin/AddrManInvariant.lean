/-
What every operation of the address manager preserves.

`Inv hashes free d` is the consistency of all tables in the middle of an operation: the
entries in `free` may be new and without a reference, and `nNew` is `d` behind.  Between the
operations nothing is free and nothing is behind.
-/
import Stonecoin.AddrMan
import Mathlib.Data.Fintype.Prod

namespace Stonecoin

open SlotTables

theorem guard_then {α : Type} {p : Prop} [Decidable p] (h : p) (f : Option α) :
    (guard p >>= fun _ => f) = f := by simp [guard, h]

namespace CAddrMan

variable {hashes : AddrHashes} {free free' : Set ℕ} {d : ℤ} {s s' : CAddrMan} {id : ℕ}
  {info : CAddrInfo}

/-! ### The invariant -/

structure EntryOk (free : Set ℕ) (s : CAddrMan) (id : ℕ) (info : CAddrInfo) : Prop where
  bound : id < s.nIdCount
  nonneg : 0 ≤ info.nRandomPos
  random : s.vRandom[info.nRandomPos.toNat]? = some id
  addr : s.mapAddr.lookup info.ip = some id
  refs : info.nRefCount = (slots s.vvNew id).card
  max : info.nRefCount ≤ ADDRMAN_NEW_BUCKETS_PER_ADDRESS
  live : info.fInTried = false → info.nRefCount ≠ 0 ∨ id ∈ free
  success : info.fInTried = true → info.nLastSuccess ≠ 0
  lastTry : 0 ≤ info.nLastTry.toInt
  lastSuccess : 0 ≤ info.nLastSuccess.toInt

theorem EntryOk.mono (h : EntryOk free s id info) (free' : Set ℕ) (hfree : id ∈ free → id ∈ free') :
    EntryOk free' s id info :=
  { h with live := fun hnew => (h.live hnew).imp_right hfree }

/-- The tables are consistent, but for the entries in `free` and for `d` new entries that are
not counted. -/
structure Inv (hashes : AddrHashes) (free : Set ℕ) (d : ℤ) (s : CAddrMan) : Prop where
  entry : ∀ {id info}, s.mapInfo.lookup id = some info → EntryOk free s id info
  random : ∀ {i : ℕ} {id}, s.vRandom[i]? = some id →
    ∃ info, s.mapInfo.lookup id = some info ∧ info.nRandomPos = (i : ℤ)
  addr : ∀ {ip id}, s.mapAddr.lookup ip = some id →
    ∃ info, s.mapInfo.lookup id = some info ∧ info.ip = ip
  tried : ∀ {slot id}, s.vvTried slot = some id ↔ ∃ info, s.mapInfo.lookup id = some info ∧
    info.fInTried = true ∧ triedSlot hashes s info.toCService = slot
  new : ∀ {slot id}, s.vvNew slot = some id → ∃ info, s.mapInfo.lookup id = some info ∧
    info.fInTried = false ∧ newSlotIn hashes s info.toCService slot.1 = slot
  nTried : s.nTried = count CAddrInfo.fInTried s.mapInfo
  nNew : s.nNew + d = count (fun info => !info.fInTried) s.mapInfo

theorem inv_of (hashes : AddrHashes) (nKey : UInt256) : Inv hashes ∅ 0 (of nKey) where
  entry h := by simp [of] at h
  random h := by simp [of] at h
  addr h := by simp [of] at h
  tried := by simp [of]
  new h := by simp [of] at h
  nTried := rfl
  nNew := rfl

/-! ### Entries that are written -/

theorem lookup_insert_cases {m : AList fun _ : ℕ => CAddrInfo} {k : ℕ} {info' : CAddrInfo}
    (h : (m.insert id info').lookup k = some info) :
    (k = id ∧ info = info') ∨ (k ≠ id ∧ m.lookup k = some info) := by
  rcases eq_or_ne k id with rfl | hne
  · rw [AList.lookup_insert] at h
    exact Or.inl ⟨rfl, (Option.some.inj h).symm⟩
  · rw [AList.lookup_insert_ne hne] at h
    exact Or.inr ⟨hne, h⟩

theorem exists_lookup_insert {m : AList fun _ : ℕ => CAddrInfo} {k : ℕ} {info' : CAddrInfo}
    {p q : CAddrInfo → Prop} (hid : m.lookup id = some info) (hpq : p info → q info')
    (hne : ∀ {info}, k ≠ id → p info → q info)
    (h : ∃ info, m.lookup k = some info ∧ p info) :
    ∃ info, (m.insert id info').lookup k = some info ∧ q info := by
  obtain ⟨w, hw, hp⟩ := h
  rcases eq_or_ne k id with rfl | hk
  · rw [hid] at hw
    cases hw
    exact ⟨info', AList.lookup_insert m, hpq hp⟩
  · exact ⟨w, by rw [AList.lookup_insert_ne hk, hw], hne hk hp⟩

theorem Inv.update (h : Inv hashes free d s) (hid : s.mapInfo.lookup id = some info)
    (info' : CAddrInfo) (hservice : info'.toCService = info.toCService)
    (hpos : info'.nRandomPos = info.nRandomPos) (hrefs : info'.nRefCount = info.nRefCount)
    (htried : info'.fInTried = info.fInTried)
    (hsuccess : info'.fInTried = true → info'.nLastSuccess ≠ 0)
    (htry : 0 ≤ info'.nLastTry.toInt) (hlast : 0 ≤ info'.nLastSuccess.toInt) :
    Inv hashes free d (s.setInfo id info') := by
  have hip : info'.ip = info.ip := congrArg CService.ip hservice
  refine ⟨?_, ?_, ?_, ?_, ?_, ?_, ?_⟩
  · intro k w hk
    rcases lookup_insert_cases hk with ⟨rfl, rfl⟩ | ⟨hne, hk⟩
    · have hok := h.entry hid
      refine ⟨hok.bound, by rw [hpos]; exact hok.nonneg, by rw [hpos]; exact hok.random,
        by rw [hip]; exact hok.addr, by rw [hrefs]; exact hok.refs, by rw [hrefs]; exact hok.max,
        ?_, hsuccess, htry, hlast⟩
      rw [hrefs, htried]
      exact hok.live
    · exact { h.entry hk with }
  · intro i k hi
    exact exists_lookup_insert hid (fun hp => by rw [hpos]; exact hp) (fun _ hp => hp) (h.random hi)
  · intro ip k hk
    exact exists_lookup_insert hid (fun hp => by rw [hip]; exact hp) (fun _ hp => hp) (h.addr hk)
  · intro slot k
    rw [show (s.setInfo id info').vvTried = s.vvTried from rfl, h.tried]
    constructor
    · exact exists_lookup_insert hid
        (fun hp => ⟨by rw [htried]; exact hp.1, by rw [hservice]; exact hp.2⟩) (fun _ hp => hp)
    · rintro ⟨w, hw, hp⟩
      rcases lookup_insert_cases hw with ⟨rfl, rfl⟩ | ⟨-, hw⟩
      · exact ⟨info, hid, by rw [← htried]; exact hp.1, by rw [← hservice]; exact hp.2⟩
      · exact ⟨w, hw, hp⟩
  · intro slot k hk
    exact exists_lookup_insert hid
      (fun hp => ⟨by rw [htried]; exact hp.1, by rw [hservice]; exact hp.2⟩) (fun _ hp => hp)
      (h.new hk)
  · exact h.nTried.trans (congrArg Nat.cast (count_insert_same _ hid htried).symm)
  · refine h.nNew.trans (congrArg Nat.cast (count_insert_same _ hid ?_).symm)
    rw [htried]

theorem Inv.of_vvNew (h : Inv hashes free d s) (hid : s.mapInfo.lookup id = some info)
    {slot : NewSlot} (hslot : s.vvNew slot = some id) :
    info.fInTried = false ∧ newSlotIn hashes s info.toCService slot.1 = slot := by
  obtain ⟨w, hw, hp⟩ := h.new hslot
  rw [hid] at hw
  cases hw
  exact hp

theorem Inv.vvNew_ne (h : Inv hashes free d s) (hid : s.mapInfo.lookup id = some info)
    (hrefs : info.nRefCount = 0) (slot : NewSlot) : s.vvNew slot ≠ some id := by
  intro hslot
  have hpos := card_slots_pos.mpr ⟨slot, hslot⟩
  have hcard := (h.entry hid).refs
  omega

theorem Inv.relink (h : Inv hashes free d s) (hid : s.mapInfo.lookup id = some info)
    (htried : info.fInTried = false) {t : NewSlot → Option ℕ} {n : ℤ}
    (hothers : ∀ k ≠ id, ∀ slot, t slot = some k ↔ s.vvNew slot = some k)
    (hown : ∀ slot, t slot = some id → newSlotIn hashes s info.toCService slot.1 = slot)
    (hn : n = (slots t id).card) (hmax : n ≤ ADDRMAN_NEW_BUCKETS_PER_ADDRESS)
    (hfree : ∀ k ∈ free, k ≠ id → k ∈ free') (hlive : n ≠ 0 ∨ id ∈ free') :
    Inv hashes free' d { s.setInfo id { info with nRefCount := n } with vvNew := t } := by
  refine ⟨?_, ?_, ?_, ?_, ?_, ?_, ?_⟩
  · intro k w hk
    rcases lookup_insert_cases hk with ⟨rfl, rfl⟩ | ⟨hne, hk⟩
    · exact { h.entry hid with refs := hn, max := hmax, live := fun _ => hlive }
    · have hok := h.entry hk
      have hslots : slots t k = slots s.vvNew k := by
        ext slot
        rw [mem_slots, mem_slots]
        exact hothers k hne slot
      exact { hok with
        refs := by rw [hslots]; exact hok.refs
        live := fun hnew => (hok.live hnew).imp_right fun hmem => hfree k hmem hne }
  · exact fun hi => exists_lookup_insert hid (fun hp => hp) (fun _ hp => hp) (h.random hi)
  · exact fun hk => exists_lookup_insert hid (fun hp => hp) (fun _ hp => hp) (h.addr hk)
  · intro slot k
    refine h.tried.trans ⟨?_, ?_⟩
    · exact exists_lookup_insert hid (fun hp => hp) (fun _ hp => hp)
    · rintro ⟨w, hw, hp⟩
      rcases lookup_insert_cases hw with ⟨rfl, rfl⟩ | ⟨-, hw⟩
      · exact ⟨info, hid, hp⟩
      · exact ⟨w, hw, hp⟩
  · intro slot k hk
    rcases eq_or_ne k id with rfl | hne
    · exact ⟨_, AList.lookup_insert s.mapInfo, htried, hown slot hk⟩
    · exact exists_lookup_insert hid (fun hp => hp) (fun _ hp => hp)
        (h.new ((hothers k hne slot).mp hk))
  · exact h.nTried.trans (congrArg Nat.cast (count_insert_same _ hid rfl).symm)
  · exact h.nNew.trans (congrArg Nat.cast (count_insert_same _ hid rfl).symm)

theorem Inv.count_setTried (h : Inv hashes free d s) (hid : s.mapInfo.lookup id = some info)
    (f : Bool) : (count CAddrInfo.fInTried (s.mapInfo.insert id { info with fInTried := f }) : ℤ) +
      info.fInTried.toNat = s.nTried + f.toNat := by
  have hcount := count_insert CAddrInfo.fInTried (v := { info with fInTried := f }) hid
  have hn := h.nTried
  dsimp only at hcount
  omega

theorem Inv.count_setNew (h : Inv hashes free d s) (hid : s.mapInfo.lookup id = some info)
    (f : Bool) : (count (fun info => !info.fInTried)
      (s.mapInfo.insert id { info with fInTried := f }) : ℤ) + (!info.fInTried).toNat =
        s.nNew + d + (!f).toNat := by
  have hcount := count_insert (fun info => !info.fInTried) (v := { info with fInTried := f }) hid
  have hn := h.nNew
  dsimp only at hcount
  omega

theorem Inv.leaveTried (h : Inv hashes free d s) (hid : s.mapInfo.lookup id = some info)
    (htried : info.fInTried = true) :
    Inv hashes (insert id free) (d + 1)
      (s.leaveTried (triedSlot hashes s info.toCService) id info) := by
  have hslot : s.vvTried (triedSlot hashes s info.toCService) = some id :=
    h.tried.mpr ⟨info, hid, htried, rfl⟩
  refine ⟨?_, ?_, ?_, ?_, ?_, ?_, ?_⟩
  · intro k w hk
    rcases lookup_insert_cases hk with ⟨rfl, rfl⟩ | ⟨hne, hk⟩
    · exact { h.entry hid with
        live := fun _ => Or.inr (Set.mem_insert k free)
        success := fun hfalse => nomatch hfalse }
    · exact { (h.entry hk).mono (insert id free) fun hmem => Set.mem_insert_of_mem id hmem with }
  · exact fun hi => exists_lookup_insert hid (fun hp => hp) (fun _ hp => hp) (h.random hi)
  · exact fun hk => exists_lookup_insert hid (fun hp => hp) (fun _ hp => hp) (h.addr hk)
  · intro slot k
    show Function.update s.vvTried (triedSlot hashes s info.toCService) none slot = some k ↔ _
    rcases eq_or_ne slot (triedSlot hashes s info.toCService) with rfl | hne
    · rw [Function.update_self]
      refine ⟨fun he => (nomatch he), ?_⟩
      rintro ⟨w, hw, hwtried, hp⟩
      rcases lookup_insert_cases hw with ⟨rfl, rfl⟩ | ⟨hk, hw⟩
      · exact (nomatch hwtried)
      · -- no other entry has this slot
        have hother := h.tried.mpr ⟨w, hw, hwtried, hp⟩
        exact absurd (Option.some.inj (hother.symm.trans hslot)) hk
    · rw [Function.update_of_ne hne, h.tried]
      constructor
      · rintro ⟨w, hw, hp⟩
        have hk : k ≠ id := by
          rintro rfl
          rw [hid] at hw
          cases hw
          exact hne hp.2.symm
        exact ⟨w, by rw [← hw]; exact AList.lookup_insert_ne hk, hp⟩
      · rintro ⟨w, hw, hp⟩
        rcases lookup_insert_cases hw with ⟨rfl, rfl⟩ | ⟨-, hw⟩
        · exact (nomatch hp.1)
        · exact ⟨w, hw, hp⟩
  · exact fun hk => exists_lookup_insert hid (fun hp => ⟨rfl, hp.2⟩) (fun _ hp => hp) (h.new hk)
  · have hcount := h.count_setTried hid false
    rw [htried] at hcount
    show s.nTried - 1 = (count _ (s.mapInfo.insert id _) : ℤ)
    simp only [Bool.toNat_true, Bool.toNat_false] at hcount
    omega
  · have hcount := h.count_setNew hid false
    rw [htried] at hcount
    show s.nNew + (d + 1) = (count _ (s.mapInfo.insert id _) : ℤ)
    simp only [Bool.not_true, Bool.not_false, Bool.toNat_true, Bool.toNat_false] at hcount
    omega

theorem Inv.enterTried (h : Inv hashes free d s) (hid : s.mapInfo.lookup id = some info)
    (htried : info.fInTried = false) (hrefs : info.nRefCount = 0)
    (hsuccess : info.nLastSuccess ≠ 0)
    (hslot : s.vvTried (triedSlot hashes s info.toCService) = none) :
    Inv hashes (free \ {id}) (d - 1)
      (s.enterTried (triedSlot hashes s info.toCService) id info) := by
  refine ⟨?_, ?_, ?_, ?_, ?_, ?_, ?_⟩
  · intro k w hk
    rcases lookup_insert_cases hk with ⟨rfl, rfl⟩ | ⟨hne, hk⟩
    · exact { h.entry hid with
        live := fun hfalse => nomatch hfalse
        success := fun _ => hsuccess }
    · exact { (h.entry hk).mono (free \ {id}) fun hmem => ⟨hmem, hne⟩ with }
  · exact fun hi => exists_lookup_insert hid (fun hp => hp) (fun _ hp => hp) (h.random hi)
  · exact fun hk => exists_lookup_insert hid (fun hp => hp) (fun _ hp => hp) (h.addr hk)
  · intro slot k
    show Function.update s.vvTried (triedSlot hashes s info.toCService) (some id) slot = some k ↔ _
    rcases eq_or_ne slot (triedSlot hashes s info.toCService) with rfl | hne
    · rw [Function.update_self]
      constructor
      · rintro ⟨⟩
        exact ⟨_, AList.lookup_insert s.mapInfo, rfl, rfl⟩
      · rintro ⟨w, hw, hp⟩
        rcases lookup_insert_cases hw with ⟨rfl, rfl⟩ | ⟨-, hw⟩
        · rfl
        · -- the slot was empty
          have hother := h.tried.mpr ⟨w, hw, hp⟩
          rw [hslot] at hother
          exact (nomatch hother)
    · rw [Function.update_of_ne hne, h.tried]
      constructor
      · rintro ⟨w, hw, hp⟩
        have hk : k ≠ id := by
          rintro rfl
          rw [hid] at hw
          cases hw
          rw [htried] at hp
          exact (nomatch hp.1)
        exact ⟨w, by rw [← hw]; exact AList.lookup_insert_ne hk, hp⟩
      · rintro ⟨w, hw, hp⟩
        rcases lookup_insert_cases hw with ⟨rfl, rfl⟩ | ⟨-, hw⟩
        · exact absurd hp.2.symm hne
        · exact ⟨w, hw, hp⟩
  · intro slot k hk
    have hne : k ≠ id := fun he => h.vvNew_ne hid hrefs slot (he ▸ hk)
    obtain ⟨w, hw, hp⟩ := h.new hk
    exact ⟨w, by rw [← hw]; exact AList.lookup_insert_ne hne, hp⟩
  · have hcount := h.count_setTried hid true
    rw [htried] at hcount
    show s.nTried + 1 = (count _ (s.mapInfo.insert id _) : ℤ)
    simp only [Bool.toNat_true, Bool.toNat_false] at hcount
    omega
  · have hcount := h.count_setNew hid true
    rw [htried] at hcount
    show s.nNew + (d - 1) = (count _ (s.mapInfo.insert id _) : ℤ)
    simp only [Bool.not_true, Bool.not_false, Bool.toNat_true, Bool.toNat_false] at hcount
    omega

/-! ### The order of the entries -/

/-- The entry may only have moved in `vRandom`. -/
def Moved (s s' : CAddrMan) (id : ℕ) : Prop :=
  ∀ {info}, s.mapInfo.lookup id = some info →
    ∃ nRandomPos, s'.mapInfo.lookup id = some { info with nRandomPos := nRandomPos }

theorem Moved.refl (s : CAddrMan) (id : ℕ) : Moved s s id :=
  fun {info} h => ⟨info.nRandomPos, h⟩

theorem Moved.trans {s'' : CAddrMan} (h : Moved s s' id) (h' : Moved s' s'' id) :
    Moved s s'' id := by
  intro info hid
  obtain ⟨_, hid'⟩ := h hid
  obtain ⟨nRandomPos, hid''⟩ := h' hid'
  exact ⟨nRandomPos, hid''⟩

theorem Inv.reorder (h : Inv hashes free d s) (e : Equiv.Perm ℕ)
    {m : AList fun _ : ℕ => CAddrInfo} {v : List ℕ}
    (hm : ∀ k, m.lookup k = (s.mapInfo.lookup k).map fun info =>
      { info with nRandomPos := (e info.nRandomPos.toNat : ℤ) })
    (hcount : ∀ p : CAddrInfo → Bool, (∀ info i, p { info with nRandomPos := i } = p info) →
      count p m = count p s.mapInfo)
    (hv : ∀ i, v[i]? = s.vRandom[e.symm i]?) :
    Inv hashes free d { s with mapInfo := m, vRandom := v } := by
  have hback : ∀ {k w}, m.lookup k = some w → ∃ info, s.mapInfo.lookup k = some info ∧
      w = { info with nRandomPos := (e info.nRandomPos.toNat : ℤ) } := by
    intro k w hk
    rw [hm, Option.map_eq_some_iff] at hk
    obtain ⟨info, hinfo, rfl⟩ := hk
    exact ⟨info, hinfo, rfl⟩
  have hforth : ∀ {k} {p : CAddrInfo → Prop}, (∀ info i, p info → p { info with nRandomPos := i }) →
      (∃ info, s.mapInfo.lookup k = some info ∧ p info) → ∃ info, m.lookup k = some info ∧ p info := by
    rintro k p hp ⟨info, hinfo, hpinfo⟩
    exact ⟨_, by rw [hm, hinfo]; rfl, hp info _ hpinfo⟩
  refine ⟨?_, ?_, ?_, ?_, ?_, ?_, ?_⟩
  · intro k w hk
    obtain ⟨info, hinfo, rfl⟩ := hback hk
    refine { h.entry hinfo with nonneg := Int.natCast_nonneg _, random := ?_ }
    show v[e info.nRandomPos.toNat]? = some k
    rw [hv, e.symm_apply_apply, (h.entry hinfo).random]
  · intro i k hi
    obtain ⟨info, hinfo, hpos⟩ := h.random ((hv i).symm.trans hi)
    refine ⟨_, by rw [hm, hinfo]; rfl, ?_⟩
    show (e info.nRandomPos.toNat : ℤ) = i
    rw [hpos, Int.toNat_natCast, e.apply_symm_apply]
  · exact fun hk => hforth (fun _ _ hp => hp) (h.addr hk)
  · intro slot k
    refine h.tried.trans ⟨hforth fun _ _ hp => hp, ?_⟩
    rintro ⟨w, hw, hp⟩
    obtain ⟨info, hinfo, rfl⟩ := hback hw
    exact ⟨info, hinfo, hp⟩
  · exact fun hk => hforth (fun _ _ hp => hp) (h.new hk)
  · exact h.nTried.trans (congrArg Nat.cast (hcount _ fun _ _ => rfl).symm)
  · exact h.nNew.trans (congrArg Nat.cast (hcount _ fun _ _ => rfl).symm)

theorem getElem?_set_set {v : List ℕ} {i j id1 id2 : ℕ} (hi : v[i]? = some id1)
    (hj : v[j]? = some id2) (x : ℕ) :
    ((v.set i id2).set j id1)[x]? = v[(Equiv.swap i j).symm x]? := by
  have hilt : i < v.length := (List.getElem?_eq_some_iff.mp hi).1
  have hjlt : j < v.length := (List.getElem?_eq_some_iff.mp hj).1
  rw [Equiv.symm_swap]
  rcases eq_or_ne j x with rfl | hjx
  · rw [List.getElem?_set_self (by rwa [List.length_set]), Equiv.swap_apply_right, hi]
  · rw [List.getElem?_set_ne hjx]
    rcases eq_or_ne i x with rfl | hix
    · rw [List.getElem?_set_self hilt, Equiv.swap_apply_left, hj]
    · rw [List.getElem?_set_ne hix, Equiv.swap_apply_of_ne_of_ne hix.symm hjx.symm]

theorem Inv.nRandomPos_eq (h : Inv hashes free d s) (hid : s.mapInfo.lookup id = some info) {x : ℕ}
    (hx : s.vRandom[x]? = some id) : info.nRandomPos = x := by
  obtain ⟨w, hw, hpos⟩ := h.random hx
  rw [hid] at hw
  cases hw
  exact hpos

theorem Inv.lookup_swap (h : Inv hashes free d s) {i j id1 id2 : ℕ} {info1 info2 : CAddrInfo}
    (hi : s.vRandom[i]? = some id1) (hj : s.vRandom[j]? = some id2) (hij : i ≠ j)
    (hid1 : s.mapInfo.lookup id1 = some info1) (hid2 : s.mapInfo.lookup id2 = some info2) (k : ℕ) :
    ((s.mapInfo.insert id1 { info1 with nRandomPos := (j : ℤ) }).insert id2
      { info2 with nRandomPos := (i : ℤ) }).lookup k =
      (s.mapInfo.lookup k).map fun info =>
        { info with nRandomPos := (Equiv.swap i j info.nRandomPos.toNat : ℤ) } := by
  have hpos : ∀ {x : ℕ} {k info}, s.vRandom[x]? = some k → s.mapInfo.lookup k = some info →
      info.nRandomPos.toNat = x := fun hx hk => by rw [h.nRandomPos_eq hk hx, Int.toNat_natCast]
  rcases eq_or_ne k id2 with rfl | hk2
  · rw [AList.lookup_insert, hid2, Option.map_some, hpos hj hid2, Equiv.swap_apply_right]
  · rw [AList.lookup_insert_ne hk2]
    rcases eq_or_ne k id1 with rfl | hk1
    · rw [AList.lookup_insert, hid1, Option.map_some, hpos hi hid1, Equiv.swap_apply_left]
    · rw [AList.lookup_insert_ne hk1]
      cases hk : s.mapInfo.lookup k with
      | none => rfl
      | some info =>
        have hok := h.entry hk
        have hni : info.nRandomPos.toNat ≠ i := by
          rintro rfl
          exact hk1 (Option.some.inj (hok.random.symm.trans hi))
        have hnj : info.nRandomPos.toNat ≠ j := by
          rintro rfl
          exact hk2 (Option.some.inj (hok.random.symm.trans hj))
        rw [Option.map_some, Equiv.swap_apply_of_ne_of_ne hni hnj, Int.toNat_of_nonneg hok.nonneg]

theorem Inv.swapRandom (h : Inv hashes free d s) {i j : ℕ} (hi : i < s.vRandom.length)
    (hj : j < s.vRandom.length) :
    ∃ m v, s.swapRandom i j = some { s with mapInfo := m, vRandom := v } ∧
      Inv hashes free d { s with mapInfo := m, vRandom := v } ∧
      (∀ k, Moved s { s with mapInfo := m, vRandom := v } k) ∧
      v.length = s.vRandom.length ∧ v[j]? = s.vRandom[i]? := by
  rcases eq_or_ne i j with rfl | hij
  · refine ⟨s.mapInfo, s.vRandom, ?_, h, Moved.refl s, rfl, rfl⟩
    rw [CAddrMan.swapRandom, if_pos rfl]
  · have hgeti : s.vRandom[i]? = some s.vRandom[i] := List.getElem?_eq_getElem hi
    have hgetj : s.vRandom[j]? = some s.vRandom[j] := List.getElem?_eq_getElem hj
    obtain ⟨info1, hid1, -⟩ := h.random hgeti
    obtain ⟨info2, hid2, -⟩ := h.random hgetj
    have hlookup := h.lookup_swap hgeti hgetj hij hid1 hid2
    have hset := getElem?_set_set hgeti hgetj
    have hne : s.vRandom[j] ≠ s.vRandom[i] := by
      intro he
      rw [← he] at hgeti
      exact hij (Int.ofNat_inj.mp ((h.nRandomPos_eq hid2 hgeti).symm.trans
        (h.nRandomPos_eq hid2 hgetj)))
    refine ⟨_, _, ?_, h.reorder (Equiv.swap i j) hlookup ?_ hset, ?_, ?_, ?_⟩
    · rw [CAddrMan.swapRandom, if_neg (fun he => hij (Int.ofNat_inj.mp he)),
        guard_then ⟨⟨Int.natCast_nonneg i, Int.ofNat_lt.mpr hi⟩, Int.natCast_nonneg j,
          Int.ofNat_lt.mpr hj⟩]
      simp only [Int.toNat_natCast, hgeti, hgetj, hid1, hid2, Option.bind_eq_bind,
        Option.bind_some, Option.pure_def]
    · intro p hp
      rw [count_insert_same p (by rw [AList.lookup_insert_ne hne, hid2]) (hp info2 i),
        count_insert_same p hid1 (hp info1 j)]
    · intro k info hk
      have hk' := hlookup k
      rw [hk] at hk'
      exact ⟨_, hk'⟩
    · rw [List.length_set, List.length_set]
    · rw [hset, Equiv.symm_swap, Equiv.swap_apply_right]

/-! ### Entries that come and go -/

theorem Inv.narrow (h : Inv hashes free d s)
    (hfree : ∀ {k w}, s.mapInfo.lookup k = some w → w.fInTried = false → w.nRefCount = 0 →
      k ∈ free → k ∈ free') : Inv hashes free' d s := by
  refine ⟨fun {k w} hk => ?_, h.random, h.addr, h.tried, h.new, h.nTried, h.nNew⟩
  have hok := h.entry hk
  refine { hok with live := fun hnew => ?_ }
  by_cases hrefs : w.nRefCount = 0
  · exact Or.inr (hfree hk hnew hrefs ((hok.live hnew).resolve_left (not_not.mpr hrefs)))
  · exact Or.inl hrefs

theorem Inv.mono (h : Inv hashes free d s) (hfree : ∀ k ∈ free, k ∈ free') :
    Inv hashes free' d s :=
  h.narrow fun _ _ _ hk => hfree _ hk

theorem Inv.drop (h : Inv hashes free d s) (hid : s.mapInfo.lookup id = some info)
    (htried : info.fInTried = false) (hrefs : info.nRefCount = 0)
    (hlast : s.vRandom[s.vRandom.length - 1]? = some id) :
    Inv hashes (free \ {id}) d
      { s with
        vRandom := s.vRandom.dropLast
        mapAddr := s.mapAddr.erase info.ip
        mapInfo := s.mapInfo.erase id
        nNew := s.nNew - 1 } := by
  have herase : ∀ {k w}, (s.mapInfo.erase id).lookup k = some w →
      k ≠ id ∧ s.mapInfo.lookup k = some w := by
    intro k w hk
    rcases eq_or_ne k id with rfl | hne
    · rw [AList.lookup_erase] at hk
      exact (nomatch hk)
    · exact ⟨hne, by rwa [AList.lookup_erase_ne hne] at hk⟩
  have hkeep : ∀ {k} {p : CAddrInfo → Prop}, k ≠ id → (∃ w, s.mapInfo.lookup k = some w ∧ p w) →
      ∃ w, (s.mapInfo.erase id).lookup k = some w ∧ p w := by
    rintro k p hne ⟨w, hw, hp⟩
    exact ⟨w, by rw [AList.lookup_erase_ne hne, hw], hp⟩
  have hdrop : ∀ {x : ℕ}, s.vRandom.dropLast[x]? = if x < s.vRandom.length - 1 then
      s.vRandom[x]? else none := by
    intro x
    rw [List.dropLast_eq_take, List.getElem?_take]
  refine ⟨?_, ?_, ?_, ?_, ?_, ?_, ?_⟩
  · intro k w hk
    obtain ⟨hne, hk⟩ := herase hk
    have hok := h.entry hk
    have hip : w.ip ≠ info.ip := by
      intro he
      have haddr := hok.addr
      rw [he, (h.entry hid).addr] at haddr
      exact hne (Option.some.inj haddr).symm
    have hlt : w.nRandomPos.toNat < s.vRandom.length - 1 := by
      have hsome := (List.getElem?_eq_some_iff.mp hok.random).1
      have hnot : w.nRandomPos.toNat ≠ s.vRandom.length - 1 := by
        intro he
        rw [← he, hok.random] at hlast
        exact hne (Option.some.inj hlast)
      omega
    exact { hok.mono (free \ {id}) fun hmem => ⟨hmem, hne⟩ with
      random := hdrop.trans ((if_pos hlt).trans hok.random)
      addr := (AList.lookup_erase_ne hip).trans hok.addr }
  · intro x k hx
    rw [hdrop] at hx
    split at hx
    next hlt =>
      obtain ⟨w, hw, hpos⟩ := h.random hx
      refine hkeep ?_ ⟨w, hw, hpos⟩
      rintro rfl
      have hpos' := h.nRandomPos_eq hw hlast
      omega
    next => exact (nomatch hx)
  · intro ip k hk
    rcases eq_or_ne ip info.ip with rfl | hne
    · rw [AList.lookup_erase] at hk
      exact (nomatch hk)
    · rw [AList.lookup_erase_ne hne] at hk
      obtain ⟨w, hw, hip⟩ := h.addr hk
      refine hkeep ?_ ⟨w, hw, hip⟩
      rintro rfl
      rw [hid] at hw
      cases hw
      exact hne hip.symm
  · intro slot k
    refine h.tried.trans ⟨?_, ?_⟩
    · rintro ⟨w, hw, hp⟩
      refine hkeep ?_ ⟨w, hw, hp⟩
      rintro rfl
      rw [hid] at hw
      cases hw
      rw [htried] at hp
      exact (nomatch hp.1)
    · rintro ⟨w, hw, hp⟩
      exact ⟨w, (herase hw).2, hp⟩
  · intro slot k hk
    exact hkeep (fun he => h.vvNew_ne hid hrefs slot (he ▸ hk)) (h.new hk)
  · have hcount := count_erase CAddrInfo.fInTried hid
    rw [htried] at hcount
    exact h.nTried.trans (congrArg Nat.cast hcount.symm)
  · have hcount := count_erase (fun info => !info.fInTried) hid
    simp only [htried, Bool.not_false, Bool.toNat_true] at hcount
    have hn := h.nNew
    show s.nNew - 1 + d = (count _ (s.mapInfo.erase id) : ℤ)
    omega

theorem Inv.delete (h : Inv hashes free d s) (hid : s.mapInfo.lookup id = some info)
    (htried : info.fInTried = false) (hrefs : info.nRefCount = 0) :
    ∃ s', s.delete id = some s' ∧ Inv hashes (free \ {id}) d s' ∧ s'.vvNew = s.vvNew ∧
      s'.vvTried = s.vvTried ∧ s'.nKey = s.nKey ∧ ∀ k ≠ id, Moved s s' k := by
  have hok := h.entry hid
  have hlt := (List.getElem?_eq_some_iff.mp hok.random).1
  obtain ⟨m, v, hswap, hinv, hmoved, hlen, hlast⟩ :=
    h.swapRandom hlt (j := s.vRandom.length - 1) (by omega)
  obtain ⟨_, hid'⟩ := hmoved id hid
  have hpos1 : ((info.nRandomPos.toNat : ℕ) : ℤ) = info.nRandomPos := Int.toNat_of_nonneg hok.nonneg
  have hpos2 : ((s.vRandom.length - 1 : ℕ) : ℤ) = (s.vRandom.length : ℤ) - 1 := by omega
  rw [hpos1, hpos2] at hswap
  refine ⟨_, ?_, hinv.drop hid' htried hrefs ?_, rfl, rfl, rfl, ?_⟩
  · rw [CAddrMan.delete, hid]
    simp only [Option.bind_eq_bind, Option.bind_some]
    rw [← Option.bind_eq_bind, guard_then htried, ← Option.bind_eq_bind, guard_then hrefs, hswap]
    rfl
  · show v[v.length - 1]? = some id
    rw [hlen, hlast, hok.random]
  · intro k hne w hk
    obtain ⟨nRandomPos, hk'⟩ := hmoved k hk
    exact ⟨nRandomPos, (AList.lookup_erase_ne hne).trans hk'⟩

theorem Inv.clearNew (h : Inv hashes free d s) (slot : NewSlot) :
    ∃ s', s.clearNew slot = some s' ∧ Inv hashes free d s' ∧
      s'.vvNew = Function.update s.vvNew slot none ∧ s'.vvTried = s.vvTried ∧ s'.nKey = s.nKey ∧
      ∀ k, s.vvNew slot ≠ some k → Moved s s' k := by
  cases hslot : s.vvNew slot with
  | none =>
    refine ⟨s, by rw [CAddrMan.clearNew, hslot], h, ?_, rfl, rfl, fun k _ => Moved.refl s k⟩
    rw [← hslot, Function.update_eq_self]
  | some idDelete =>
    obtain ⟨infoDelete, hid, htried, hown⟩ := h.new hslot
    have hrefs := (h.entry hid).refs
    have hmax := (h.entry hid).max
    have hcard := card_slots_clear hslot
    have hne : ∀ k, some idDelete ≠ some k → k ≠ idDelete := fun k hk he => hk (he ▸ rfl)
    have hclear : s.clearNew slot = if infoDelete.nRefCount - 1 = 0 then
        CAddrMan.delete { s.setInfo idDelete
          { infoDelete with nRefCount := infoDelete.nRefCount - 1 } with
            vvNew := Function.update s.vvNew slot none } idDelete
        else some { s.setInfo idDelete
          { infoDelete with nRefCount := infoDelete.nRefCount - 1 } with
            vvNew := Function.update s.vvNew slot none } := by
      rw [CAddrMan.clearNew, hslot]
      simp only [hid, Option.bind_eq_bind, Option.bind_some]
      rw [← Option.bind_eq_bind, guard_then (show 0 < infoDelete.nRefCount by omega)]
      rfl
    -- the slot is cleared, and the reference is not counted any more
    have hinv : ∀ free', (∀ k ∈ free, k ∈ free') →
        (infoDelete.nRefCount - 1 ≠ 0 ∨ idDelete ∈ free') → Inv hashes free' d
          { s.setInfo idDelete { infoDelete with nRefCount := infoDelete.nRefCount - 1 } with
            vvNew := Function.update s.vvNew slot none } := by
      intro free' hfree hlive
      refine h.relink hid htried ?_ ?_ (by omega) (by omega) (fun k hk _ => hfree k hk) hlive
      · intro k hk slot'
        rcases eq_or_ne slot' slot with rfl | hslot'
        · rw [Function.update_self, hslot]
          exact ⟨fun he => (nomatch he), fun he => absurd (Option.some.inj he).symm hk⟩
        · rw [Function.update_of_ne hslot']
      · intro slot' hslot'
        rcases eq_or_ne slot' slot with rfl | hne'
        · exact hown
        · rw [Function.update_of_ne hne'] at hslot'
          exact (h.of_vvNew hid hslot').2
    have hmoved : ∀ k ≠ idDelete, Moved s
        { s.setInfo idDelete { infoDelete with nRefCount := infoDelete.nRefCount - 1 } with
          vvNew := Function.update s.vvNew slot none } k :=
      fun k hk w hw => ⟨w.nRandomPos, (AList.lookup_insert_ne hk).trans hw⟩
    by_cases hlast : infoDelete.nRefCount - 1 = 0
    · rw [if_pos hlast] at hclear
      obtain ⟨s', hdelete, hinv', hnew, hvvTried, hkey, hmoved'⟩ :=
        (hinv (insert idDelete free) (fun k hk => Set.mem_insert_of_mem _ hk)
          (Or.inr (Set.mem_insert _ _))).delete (AList.lookup_insert s.mapInfo) htried hlast
      refine ⟨s', hclear.trans hdelete, hinv'.mono ?_, hnew, hvvTried, hkey, fun k hk => ?_⟩
      · rintro k ⟨hk | hk, hne'⟩
        · exact absurd hk hne'
        · exact hk
      · exact Moved.trans (hmoved k (hne k hk)) (hmoved' k (hne k hk))
    · rw [if_neg hlast] at hclear
      exact ⟨_, hclear, hinv free (fun k hk => hk) (Or.inl hlast), rfl, rfl, rfl,
        fun k hk => hmoved k (hne k hk)⟩

/-- The entry is written under the next number, at the end of the random order. -/
def append (s : CAddrMan) (info : CAddrInfo) : CAddrMan :=
  { s with
    nIdCount := s.nIdCount + 1
    mapInfo := s.mapInfo.insert s.nIdCount { info with nRandomPos := s.vRandom.length }
    mapAddr := s.mapAddr.insert info.ip s.nIdCount
    vRandom := s.vRandom ++ [s.nIdCount] }

theorem Inv.lookup_nIdCount (h : Inv hashes free d s) : s.mapInfo.lookup s.nIdCount = none := by
  cases hlookup : s.mapInfo.lookup s.nIdCount with
  | none => rfl
  | some w => exact absurd (h.entry hlookup).bound (lt_irrefl _)

theorem Inv.append (h : Inv hashes free d s) (haddr : s.mapAddr.lookup info.ip = none)
    (hnew : info.fInTried = false) (hrefs : info.nRefCount = 0) (htry : 0 ≤ info.nLastTry.toInt)
    (hlast : 0 ≤ info.nLastSuccess.toInt) :
    Inv hashes (insert s.nIdCount free) (d + 1) (s.append info) := by
  have hid := h.lookup_nIdCount
  have hkeep : ∀ {k} {p : CAddrInfo → Prop}, (∃ w, s.mapInfo.lookup k = some w ∧ p w) →
      ∃ w, (s.append info).mapInfo.lookup k = some w ∧ p w := by
    rintro k p ⟨w, hw, hp⟩
    refine ⟨w, ?_, hp⟩
    rw [← hw]
    exact AList.lookup_insert_ne (h.entry hw).bound.ne
  refine ⟨?_, ?_, ?_, ?_, ?_, ?_, ?_⟩
  · intro k w hk
    rcases lookup_insert_cases hk with ⟨rfl, rfl⟩ | ⟨hne, hk⟩
    · refine ⟨Nat.lt_succ_self _, Int.natCast_nonneg _, ?_, AList.lookup_insert s.mapAddr, ?_, ?_,
        fun _ => Or.inr (Set.mem_insert _ _), fun htried => ?_, htry, hlast⟩
      · show (s.vRandom ++ [s.nIdCount])[(s.vRandom.length : ℤ).toNat]? = _
        simp
      · -- no slot has the number yet
        have hzero : slots s.vvNew s.nIdCount = ∅ := by
          ext slot
          simp only [mem_slots, Finset.notMem_empty, iff_false]
          intro hslot
          obtain ⟨w, hw, -⟩ := h.new hslot
          rw [hid] at hw
          exact (nomatch hw)
        show info.nRefCount = ((slots s.vvNew s.nIdCount).card : ℤ)
        rw [hzero, hrefs]
        rfl
      · show info.nRefCount ≤ ADDRMAN_NEW_BUCKETS_PER_ADDRESS
        rw [hrefs]
        decide
      · exact absurd (hnew.symm.trans htried) Bool.false_ne_true
    · have hok := h.entry hk
      have hip : w.ip ≠ info.ip := by
        intro he
        have hsome := hok.addr
        rw [he, haddr] at hsome
        exact (nomatch hsome)
      have hlt := (List.getElem?_eq_some_iff.mp hok.random).1
      exact { hok.mono (insert s.nIdCount free) fun hmem => Set.mem_insert_of_mem _ hmem with
        bound := Nat.lt_succ_of_lt hok.bound
        random := (List.getElem?_append_left hlt).trans hok.random
        addr := (AList.lookup_insert_ne hip).trans hok.addr }
  · intro i k hi
    change (s.vRandom ++ [s.nIdCount])[i]? = some k at hi
    rw [List.getElem?_append] at hi
    split at hi
    next hlt => exact hkeep (h.random hi)
    next hge =>
      have hi0 : i - s.vRandom.length = 0 := by
        by_contra hpos
        rw [List.getElem?_eq_none (by simpa using Nat.one_le_iff_ne_zero.mpr hpos)] at hi
        exact (nomatch hi)
      rw [hi0] at hi
      cases hi
      exact ⟨_, AList.lookup_insert s.mapInfo, congrArg Nat.cast (by omega)⟩
  · intro ip k hk
    change (s.mapAddr.insert info.ip s.nIdCount).lookup ip = some k at hk
    rcases eq_or_ne ip info.ip with rfl | hne
    · rw [AList.lookup_insert] at hk
      cases hk
      exact ⟨_, AList.lookup_insert s.mapInfo, rfl⟩
    · rw [AList.lookup_insert_ne hne] at hk
      exact hkeep (h.addr hk)
  · intro slot k
    refine h.tried.trans ⟨hkeep, ?_⟩
    rintro ⟨w, hw, hp⟩
    rcases lookup_insert_cases hw with ⟨rfl, rfl⟩ | ⟨-, hw⟩
    · exact absurd (hnew.symm.trans hp.1) Bool.false_ne_true
    · exact ⟨w, hw, hp⟩
  · exact fun hk => hkeep (h.new hk)
  · have hcount := count_insert_new CAddrInfo.fInTried hid
      (v := { info with nRandomPos := s.vRandom.length })
    have hzero : (CAddrInfo.fInTried { info with nRandomPos := s.vRandom.length }).toNat = 0 :=
      congrArg Bool.toNat hnew
    rw [hzero] at hcount
    exact h.nTried.trans (congrArg Nat.cast hcount.symm)
  · have hcount := count_insert_new (fun info => !info.fInTried) hid
      (v := { info with nRandomPos := s.vRandom.length })
    have hone : (!CAddrInfo.fInTried { info with nRandomPos := s.vRandom.length }).toNat = 1 :=
      congrArg (fun b => (!b).toNat) hnew
    have hn := h.nNew
    show s.nNew + (d + 1) = (count _ (s.mapInfo.insert _ _) : ℤ)
    rw [hcount, hone]
    omega

theorem Inv.create (h : Inv hashes free d s) (addr : CAddress) (hnew : s.find addr.ip = none)
    (source : List UInt8) : Inv hashes (insert s.nIdCount free) (d + 1) (s.create addr source) := by
  have haddr : s.mapAddr.lookup addr.ip = none := by
    cases hlookup : s.mapAddr.lookup addr.ip with
    | none => rfl
    | some k =>
      obtain ⟨w, hw, -⟩ := h.addr hlookup
      rw [CAddrMan.find, hlookup] at hnew
      simp [hw] at hnew
  show Inv hashes _ _ (s.append (.of addr source))
  exact h.append haddr rfl rfl (show 0 ≤ (0 : Int64).toInt by decide)
    (show 0 ≤ (0 : Int64).toInt by decide)

/-! ### Moving to tried and back -/

theorem foldl_unlink (id : ℕ) : ∀ (l : List NewSlot) (t : NewSlot → Option ℕ) (n : ℤ),
    n = (slots t id).card →
    (∀ k ≠ id, ∀ slot, (l.foldl (unlink id) (t, n)).1 slot = some k ↔ t slot = some k) ∧
      (∀ slot, (l.foldl (unlink id) (t, n)).1 slot = some id → t slot = some id ∧ slot ∉ l) ∧
      (l.foldl (unlink id) (t, n)).2 = (slots (l.foldl (unlink id) (t, n)).1 id).card := by
  intro l
  induction l with
  | nil => exact fun t n hn => ⟨fun _ _ _ => Iff.rfl, fun _ h => ⟨h, List.not_mem_nil⟩, hn⟩
  | cons x l ih =>
    intro t n hn
    rw [List.foldl_cons, unlink]
    split
    next hx =>
      have hx : t x = some id := hx
      have hcard := card_slots_clear hx
      obtain ⟨hothers, hown, hcount⟩ := ih (Function.update t x none) (n - 1) (by omega)
      refine ⟨fun k hk slot => (hothers k hk slot).trans ?_, fun slot hslot => ?_, hcount⟩
      · rcases eq_or_ne slot x with rfl | hne
        · rw [Function.update_self, hx]
          exact ⟨fun he => absurd he (by simp), fun he => absurd (Option.some.inj he).symm hk⟩
        · rw [Function.update_of_ne hne]
      · obtain ⟨hold, hmem⟩ := hown slot hslot
        rcases eq_or_ne slot x with rfl | hne
        · rw [Function.update_self] at hold
          exact absurd hold (by simp)
        · rw [Function.update_of_ne hne] at hold
          exact ⟨hold, fun h => (List.mem_cons.mp h).elim hne hmem⟩
    next hx =>
      obtain ⟨hothers, hown, hcount⟩ := ih t n hn
      refine ⟨hothers, fun slot hslot => ?_, hcount⟩
      obtain ⟨hold, hmem⟩ := hown slot hslot
      refine ⟨hold, fun h => (List.mem_cons.mp h).elim (fun he => hx ?_) hmem⟩
      rw [← he]
      exact hold

theorem Inv.countNew (h : Inv hashes free d s) (n : ℤ) :
    Inv hashes free (d - n) { s with nNew := s.nNew + n } := by
  refine ⟨fun hk => { h.entry hk with }, h.random, h.addr, h.tried, h.new, h.nTried, ?_⟩
  · rw [← h.nNew]
    show s.nNew + n + (d - n) = s.nNew + d
    omega

theorem Inv.leaveNew (h : Inv hashes free d s) (hid : s.mapInfo.lookup id = some info)
    (htried : info.fInTried = false) :
    (unlinkAll hashes s id info).2 = 0 ∧
      Inv hashes (insert id free) (d + 1) (leaveNew hashes s id info) ∧
      (leaveNew hashes s id info).mapInfo.lookup id = some { info with nRefCount := 0 } := by
  have hspec := foldl_unlink id
    ((List.finRange ADDRMAN_NEW_BUCKET_COUNT).map (newSlotIn hashes s info.toCService)) s.vvNew
    info.nRefCount (h.entry hid).refs
  have hmem : ∀ x, newSlotIn hashes s info.toCService x ∈
      (List.finRange ADDRMAN_NEW_BUCKET_COUNT).map (newSlotIn hashes s info.toCService) :=
    fun x => List.mem_map.mpr ⟨x, List.mem_finRange x, rfl⟩
  unfold CAddrMan.leaveNew CAddrMan.unlinkAll
  generalize (List.finRange ADDRMAN_NEW_BUCKET_COUNT).map
    (newSlotIn hashes s info.toCService) = l at hspec hmem ⊢
  obtain ⟨hothers, hown, hcount⟩ := hspec
  -- every slot of the entry is where its bucket and the key have it
  have hnone : ∀ slot, (l.foldl (unlink id) (s.vvNew, info.nRefCount)).1 slot ≠ some id := by
    intro slot hslot
    obtain ⟨hold, hnot⟩ := hown slot hslot
    rw [← (h.of_vvNew hid hold).2] at hnot
    exact hnot (hmem slot.1)
  have hzero : (l.foldl (unlink id) (s.vvNew, info.nRefCount)).2 = 0 := by
    refine hcount.trans (congrArg Nat.cast (Finset.card_eq_zero.mpr ?_))
    ext slot
    simp only [mem_slots, Finset.notMem_empty, iff_false]
    exact hnone slot
  have hinv := h.relink hid htried hothers (fun slot hslot => absurd hslot (hnone slot)) hcount
    (by rw [hzero]; decide) (fun k hk _ => Set.mem_insert_of_mem id hk)
    (Or.inr (Set.mem_insert id free))
  have hcounted := hinv.countNew (-1)
  rw [sub_neg_eq_add] at hcounted
  exact ⟨hzero, hcounted, (AList.lookup_insert s.mapInfo).trans
    (congrArg (fun n => some { info with nRefCount := n }) hzero)⟩

theorem Inv.enterNew (h : Inv hashes free d s) (hid : s.mapInfo.lookup id = some info)
    (htried : info.fInTried = false) {n : ℤ} (hn : n = info.nRefCount + 1)
    (hmax : n ≤ ADDRMAN_NEW_BUCKETS_PER_ADDRESS)
    {slot : NewSlot} (hempty : s.vvNew slot = none)
    (hslot : newSlotIn hashes s info.toCService slot.1 = slot) :
    Inv hashes (free \ {id}) d (s.enterNew slot id info n) := by
  have hrefs := (h.entry hid).refs
  have hcard := card_slots_put (k := id) hempty
  refine h.relink hid htried ?_ ?_ (by omega) hmax (fun k hk hne => ⟨hk, hne⟩)
    (Or.inl (by omega))
  · intro k hk slot'
    rw [← mem_slots, slots_put_ne hempty hk.symm, mem_slots]
  · intro slot' hslot'
    rcases eq_or_ne slot' slot with rfl | hne
    · exact hslot
    · rw [Function.update_of_ne hne] at hslot'
      exact (h.of_vvNew hid hslot').2

theorem Inv.nRefCount_of_tried (h : Inv hashes free d s) (hid : s.mapInfo.lookup id = some info)
    (htried : info.fInTried = true) : info.nRefCount = 0 := by
  by_contra hne
  have hrefs := (h.entry hid).refs
  obtain ⟨slot, hslot⟩ := card_slots_pos.mp (show 0 < (slots s.vvNew id).card by omega)
  exact Bool.noConfusion (htried.symm.trans (h.of_vvNew hid hslot).1)

theorem Inv.evict (h : Inv hashes free d s) (hid : s.mapInfo.lookup id = some info)
    (htried : info.fInTried = true) :
    ∃ s', s.evict hashes (triedSlot hashes s info.toCService) id = some s' ∧
      Inv hashes free d s' ∧
      s'.vvTried = Function.update s.vvTried (triedSlot hashes s info.toCService) none ∧
      s'.nKey = s.nKey ∧ ∀ {k w}, s.mapInfo.lookup k = some w → w.fInTried = false →
        w.nRefCount = 0 → ∃ i, s'.mapInfo.lookup k = some { w with nRandomPos := i } := by
  have hrefs0 := h.nRefCount_of_tried hid htried
  have h1 := h.leaveTried hid htried
  have hslot1 : newSlot hashes (s.leaveTried (triedSlot hashes s info.toCService) id info)
      info.toCService info.source = newSlot hashes s info.toCService info.source := rfl
  generalize hslot : newSlot hashes s info.toCService info.source = nUSlot at hslot1
  obtain ⟨s2, hclear, h2, hnew2, htried2, hkey2, hmoved2⟩ := h1.clearNew nUSlot
  obtain ⟨i, hid2⟩ := hmoved2 id (h.vvNew_ne hid hrefs0 _) (AList.lookup_insert s.mapInfo)
  have hempty : s2.vvNew nUSlot = none := by rw [hnew2, Function.update_self]
  have hslot2 : newSlotIn hashes s2 info.toCService nUSlot.1 = nUSlot := by
    rw [← hslot]
    unfold newSlot newSlotIn
    rw [hkey2]
    rfl
  have h3 := (h2.enterNew (n := 1) hid2 rfl (by show 1 = info.nRefCount + 1; omega) (by decide)
    hempty hslot2).countNew 1
  have hd : d + 1 - 1 = d := by omega
  rw [hd] at h3
  refine ⟨_, ?_, h3.mono ?_, htried2, hkey2, ?_⟩
  · simp only [CAddrMan.evict, hid, Option.bind_eq_bind, Option.bind_some]
    rw [hslot1, hclear, Option.bind_some, ← Option.bind_eq_bind, guard_then hempty, hid2]
    rfl
  · rintro k ⟨hk | hk, hne⟩
    · exact absurd hk hne
    · exact hk
  · intro k w hk hwnew hwrefs
    have hne : k ≠ id := by
      rintro rfl
      rw [hid] at hk
      cases hk
      rw [htried] at hwnew
      exact (nomatch hwnew)
    obtain ⟨j, hk2⟩ := hmoved2 k (h.vvNew_ne hk hwrefs _) ((AList.lookup_insert_ne hne).trans hk)
    exact ⟨j, (AList.lookup_insert_ne hne).trans hk2⟩

theorem Inv.makeRoom (h : Inv hashes free d s) (slot : TriedSlot) :
    ∃ s', s.makeRoom hashes slot = some s' ∧ Inv hashes free d s' ∧ s'.vvTried slot = none ∧
      s'.nKey = s.nKey ∧ ∀ {k w}, s.mapInfo.lookup k = some w → w.fInTried = false →
        w.nRefCount = 0 → ∃ i, s'.mapInfo.lookup k = some { w with nRandomPos := i } := by
  cases hslot : s.vvTried slot with
  | none =>
    refine ⟨s, by rw [CAddrMan.makeRoom, hslot], h, hslot, rfl, fun hk _ _ => ?_⟩
    exact ⟨_, hk⟩
  | some nIdEvict =>
    obtain ⟨infoOld, hid, htried, rfl⟩ := h.tried.mp hslot
    obtain ⟨s', hevict, hinv, hvvTried, hkey, hkeep⟩ := h.evict hid htried
    refine ⟨s', by rw [CAddrMan.makeRoom, hslot]; exact hevict, hinv, ?_, hkey, hkeep⟩
    rw [hvvTried, Function.update_self]

theorem Inv.makeTried (h : Inv hashes ∅ 0 s) (hid : s.mapInfo.lookup id = some info)
    (htried : info.fInTried = false) (hsuccess : info.nLastSuccess ≠ 0) :
    ∃ s', s.makeTried hashes id = some s' ∧ Inv hashes ∅ 0 s' ∧ s'.nKey = s.nKey := by
  obtain ⟨hzero, h1, hid1⟩ := h.leaveNew hid htried
  obtain ⟨s2, hroom, h2, hempty, hkey, hkeep⟩ :=
    h1.makeRoom (triedSlot hashes s info.toCService)
  obtain ⟨i, hid2⟩ := hkeep hid1 htried rfl
  have hslot : triedSlot hashes s2 info.toCService = triedSlot hashes s info.toCService := by
    unfold triedSlot
    rw [hkey]
    rfl
  have hempty2 : s2.vvTried (triedSlot hashes s2 info.toCService) = none := by rw [hslot, hempty]
  have h3 := h2.enterTried hid2 htried rfl hsuccess hempty2
  refine ⟨s2.enterTried (triedSlot hashes s info.toCService) id
    { info with nRefCount := 0, nRandomPos := i }, ?_, ?_, hkey⟩
  · simp only [CAddrMan.makeTried, hid, Option.bind_eq_bind, Option.bind_some]
    rw [← Option.bind_eq_bind, guard_then hzero, hroom, Option.bind_some, ← Option.bind_eq_bind,
      guard_then hempty, hid2]
    rfl
  · rw [← hslot]
    have h4 : Inv hashes ∅ (0 + 1 - 1) (s2.enterTried (triedSlot hashes s2 info.toCService) id
        { info with nRefCount := 0, nRandomPos := i }) := h3.mono (by simp)
    exact h4

/-! ### Placing a new entry -/

theorem Inv.settle (h : Inv hashes free d s) (hfree : ∀ k ∈ free, k = id)
    (hid : s.mapInfo.lookup id = some info) (hrefs : info.nRefCount ≠ 0) : Inv hashes ∅ d s := by
  refine h.narrow fun {k w} hk _ hzero hmem => ?_
  obtain rfl := hfree k hmem
  obtain rfl := Option.some.inj (hid.symm.trans hk)
  exact absurd hzero hrefs

theorem Inv.place (h : Inv hashes free 0 s) (hfree : ∀ k ∈ free, k = id)
    (hid : s.mapInfo.lookup id = some info) (htried : info.fInTried = false)
    (hmax : info.nRefCount < ADDRMAN_NEW_BUCKETS_PER_ADDRESS) (source : List UInt8) (nNow : ℤ) :
    ∃ s', s.place hashes source nNow id = some s' ∧ Inv hashes ∅ 0 s' ∧ s'.nKey = s.nKey := by
  generalize hslot : newSlot hashes s info.toCService source = slot
  have hin : newSlotIn hashes s info.toCService slot.1 = slot := by rw [← hslot]; rfl
  have hempty : ∀ k ∈ free \ {id}, k ∈ (∅ : Set ℕ) := fun k hk => absurd (hfree k hk.1) hk.2
  have hplace : s.place hashes source nNow id = if s.vvNew slot = some id then some s else
      (s.fInsert slot nNow info).bind fun fInsert => if fInsert then s.takeSlot slot id
        else if info.nRefCount = 0 then s.delete id else some s := by
    simp only [CAddrMan.place, hid, Option.bind_eq_bind, Option.bind_some, hslot]
  rw [hplace]
  split
  next hin =>
    have hrefs := (h.entry hid).refs
    have hpos := card_slots_pos.mpr ⟨slot, hin⟩
    exact ⟨s, rfl, h.settle hfree hid (by omega), rfl⟩
  next hnot =>
    obtain ⟨fInsert, hinsert⟩ : ∃ f, s.fInsert slot nNow info = some f := by
      unfold CAddrMan.fInsert
      cases hexisting : s.vvNew slot with
      | none => exact ⟨true, rfl⟩
      | some nIdExisting =>
        obtain ⟨infoExisting, hlookup, -⟩ := h.new hexisting
        simp only [hlookup, Option.bind_eq_bind, Option.bind_some, Option.pure_def]
        exact ⟨_, rfl⟩
    rw [hinsert, Option.bind_some]
    cases fInsert with
    | true =>
      obtain ⟨s2, hclear, h2, hnew2, -, hkey2, hmoved⟩ := h.clearNew slot
      obtain ⟨i, hid2⟩ := hmoved id hnot hid
      have hin2 : newSlotIn hashes s2 info.toCService slot.1 = slot := by
        rw [← hin]
        unfold newSlotIn
        rw [hkey2]
      have h3 := h2.enterNew hid2 htried rfl (Int.add_one_le_of_lt hmax)
        (by rw [hnew2, Function.update_self]) hin2
      refine ⟨_, ?_, h3.mono hempty, hkey2⟩
      rw [if_pos rfl, takeSlot, hclear]
      simp only [Option.bind_eq_bind, Option.bind_some, hid2]
      rfl
    | false =>
      rw [if_neg Bool.false_ne_true]
      split
      next hrefs =>
        obtain ⟨s2, hdelete, h2, -, -, hkey2, -⟩ := h.delete hid htried hrefs
        exact ⟨s2, hdelete, h2.mono hempty, hkey2⟩
      next hrefs => exact ⟨s, rfl, h.settle hfree hid hrefs, rfl⟩

end CAddrMan

end Stonecoin
