/-
The states that the address manager can reach: by its operations, and by saving and loading.

An address that comes from the network or from a file has 16 bytes, and a port has two.  The
operations pass the addresses on as they are, so every entry can be written and read back.

  * `Reachable.survives`: saving and loading loses nothing.
-/
import Stonecoin.AddrManReload

namespace Stonecoin

open SlotTables OrderedMaps Readers

theorem CAddrInfo.Typed.update {info w : CAddrInfo} (h : info.Typed)
    (haddr : w.toCService = info.toCService) (hsource : w.source = info.source) : w.Typed where
  ip := haddr ▸ h.ip
  port := haddr ▸ h.port
  source := hsource ▸ h.source

namespace CAddrMan

variable {hashes : AddrHashes} {s t : CAddrMan} {id : ℕ} {info : CAddrInfo}

/-! ### Addresses of the right length -/

/-- Every entry has an address and a source of 16 bytes, and a port of two. -/
def AllTyped (m : AList fun _ : ℕ => CAddrInfo) : Prop :=
  ∀ id info, m.lookup id = some info → info.Typed

/-- A new address has the lengths. -/
def Event.Typed : Event → Prop
  | .add addr source _ _ _ _ => (CAddrInfo.of addr source).Typed
  | _ => True

variable {m : AList fun _ : ℕ => CAddrInfo}

theorem AllTyped.insert (h : AllTyped m) (id : ℕ) (hinfo : info.Typed) :
    AllTyped (m.insert id info) := by
  intro k w hk
  by_cases hkey : k = id
  · subst hkey
    rw [AList.lookup_insert] at hk
    exact Option.some.inj hk ▸ hinfo
  · rw [AList.lookup_insert_ne hkey] at hk
    exact h k w hk

theorem AllTyped.erase (h : AllTyped m) (id : ℕ) : AllTyped (m.erase id) := by
  intro k w hk
  by_cases hkey : k = id
  · subst hkey
    simp at hk
  · rw [AList.lookup_erase_ne hkey] at hk
    exact h k w hk

/-! ### The parts of the operations -/

theorem AllTyped.swapRandom (h : AllTyped s.mapInfo) {a b : ℤ} (hs : s.swapRandom a b = some t) :
    AllTyped t.mapInfo := by
  unfold CAddrMan.swapRandom at hs
  split at hs
  next => exact Option.some.inj hs ▸ h
  next =>
    simp only [Option.bind_eq_bind, Option.bind_eq_some_iff, Option.pure_def,
      Option.some.injEq] at hs
    obtain ⟨-, -, nId1, -, nId2, -, info1, h1, info2, h2, rfl⟩ := hs
    refine AllTyped.insert (AllTyped.insert h nId1 ?_) nId2 ?_
    · exact (h _ _ h1).update rfl rfl
    · exact (h _ _ h2).update rfl rfl

theorem AllTyped.delete (h : AllTyped s.mapInfo) (hs : s.delete id = some t) :
    AllTyped t.mapInfo := by
  simp only [CAddrMan.delete, Option.bind_eq_bind, Option.bind_eq_some_iff, Option.pure_def,
    Option.some.injEq] at hs
  obtain ⟨info, -, -, -, -, -, s₁, hswap, rfl⟩ := hs
  exact (h.swapRandom hswap).erase id

theorem AllTyped.clearNew (h : AllTyped s.mapInfo) {slot : NewSlot}
    (hs : s.clearNew slot = some t) : AllTyped t.mapInfo := by
  unfold CAddrMan.clearNew at hs
  split at hs
  next => exact Option.some.inj hs ▸ h
  next nIdDelete _ =>
    simp only [Option.bind_eq_bind, Option.bind_eq_some_iff, Option.pure_def] at hs
    obtain ⟨info, hinfo, -, -, hs⟩ := hs
    have h₁ := h.insert nIdDelete (show CAddrInfo.Typed { info with
      nRefCount := info.nRefCount - 1 } from (h _ _ hinfo).update rfl rfl)
    split at hs
    next => exact AllTyped.delete h₁ hs
    next => exact Option.some.inj hs ▸ h₁

theorem AllTyped.makeRoom (h : AllTyped s.mapInfo) {slot : TriedSlot}
    (hs : s.makeRoom hashes slot = some t) : AllTyped t.mapInfo := by
  unfold CAddrMan.makeRoom at hs
  split at hs
  next => exact Option.some.inj hs ▸ h
  next nIdEvict _ =>
    simp only [evict, Option.bind_eq_bind, Option.bind_eq_some_iff, Option.pure_def,
      Option.some.injEq] at hs
    obtain ⟨infoOld, hold, s₁, hclear, -, -, infoOld', hold', rfl⟩ := hs
    have h₁ := h.insert nIdEvict (show CAddrInfo.Typed { infoOld with
      fInTried := false } from (h _ _ hold).update rfl rfl)
    have h₂ : AllTyped s₁.mapInfo := AllTyped.clearNew h₁ hclear
    exact h₂.insert nIdEvict ((h₂ _ _ hold').update rfl rfl)

theorem AllTyped.makeTried (h : AllTyped s.mapInfo) (hs : s.makeTried hashes id = some t) :
    AllTyped t.mapInfo := by
  simp only [CAddrMan.makeTried, Option.bind_eq_bind, Option.bind_eq_some_iff, Option.pure_def,
    Option.some.injEq] at hs
  obtain ⟨info, hinfo, -, -, s₁, hroom, -, -, info', hinfo', rfl⟩ := hs
  have h₁ : AllTyped (leaveNew hashes s id info).mapInfo :=
    h.insert id ((h _ _ hinfo).update rfl rfl)
  have h₂ := h₁.makeRoom hroom
  exact h₂.insert id ((h₂ _ _ hinfo').update rfl rfl)

theorem AllTyped.place (h : AllTyped s.mapInfo) {source : List UInt8} {nNow : ℤ}
    (hs : s.place hashes source nNow id = some t) : AllTyped t.mapInfo := by
  simp only [CAddrMan.place, Option.bind_eq_bind, Option.bind_eq_some_iff] at hs
  obtain ⟨pinfo, -, hs⟩ := hs
  split at hs
  next => exact Option.some.inj hs ▸ h
  next =>
    obtain ⟨fInsert, -, hs⟩ := Option.bind_eq_some_iff.mp hs
    split at hs
    next =>
      simp only [takeSlot, Option.bind_eq_bind, Option.bind_eq_some_iff, Option.pure_def,
        Option.some.injEq] at hs
      obtain ⟨s₁, hclear, pinfo', hpinfo', rfl⟩ := hs
      have h₁ := h.clearNew hclear
      exact h₁.insert id ((h₁ _ _ hpinfo').update rfl rfl)
    next =>
      split at hs
      next => exact h.delete hs
      next => exact Option.some.inj hs ▸ h

/-! ### The operations -/

theorem AllTyped.good (h : AllTyped s.mapInfo) {addr : CService} {nTime : Int64} {nRnd : ℕ}
    (hs : s.good hashes addr nTime nRnd = some t) : AllTyped t.mapInfo := by
  unfold CAddrMan.good at hs
  split at hs
  next => exact Option.some.inj hs ▸ h
  next id info hfind =>
    have h₁ : AllTyped (s.setInfo id { info with
        nLastSuccess := nTime, nLastTry := nTime, nAttempts := 0 }).mapInfo :=
      h.insert id ((h _ _ (find_eq_some hfind)).update rfl rfl)
    split at hs
    next => exact Option.some.inj hs ▸ h
    next =>
      dsimp only at hs
      split at hs
      next => exact Option.some.inj hs ▸ h₁
      next =>
        split at hs
        next => exact Option.some.inj hs ▸ h₁
        next => exact h₁.makeTried hs

theorem AllTyped.add (h : AllTyped s.mapInfo) {addr : CAddress} {source : List UInt8}
    (htyped : (CAddrInfo.of addr source).Typed) {nTimePenalty nNow nNow' : ℤ} {nRnd : ℕ} {r : Bool}
    (hs : s.add hashes addr source nTimePenalty nNow nNow' nRnd = some (r, t)) :
    AllTyped t.mapInfo := by
  unfold CAddrMan.add at hs
  split at hs
  next => exact (Prod.mk.inj (Option.some.inj hs)).2 ▸ h
  next =>
    split at hs
    next id info hfind =>
      have h₁ : AllTyped (s.setInfo id (refresh addr nTimePenalty nNow info)).mapInfo :=
        h.insert id ((h _ _ (find_eq_some hfind)).update rfl rfl)
      dsimp only at hs
      split at hs
      next => exact (Prod.mk.inj (Option.some.inj hs)).2 ▸ h₁
      next =>
        obtain ⟨s₁, hplace, heq⟩ := Option.map_eq_some_iff.mp hs
        exact (Prod.mk.inj heq).2 ▸ h₁.place hplace
    next =>
      obtain ⟨s₁, hplace, heq⟩ := Option.map_eq_some_iff.mp hs
      refine (Prod.mk.inj heq).2 ▸ AllTyped.place (AllTyped.insert h s.nIdCount ?_) hplace
      exact htyped.update rfl rfl

theorem AllTyped.getAddrLoop {nNodes : ℕ} {rnd : ℕ → ℕ} {now : ℕ → ℤ} : ∀ {k n : ℕ} {s t : CAddrMan}
    {vAddr r : List CAddress}, AllTyped s.mapInfo →
      getAddrLoop nNodes rnd now k n s vAddr = some (r, t) → AllTyped t.mapInfo := by
  intro k
  induction k with
  | zero =>
    intro n s t vAddr r h hs
    exact (Prod.mk.inj (Option.some.inj hs)).2 ▸ h
  | succ k ih =>
    intro n s t vAddr r h hs
    unfold CAddrMan.getAddrLoop at hs
    split at hs
    next => exact (Prod.mk.inj (Option.some.inj hs)).2 ▸ h
    next =>
      simp only [Option.bind_eq_bind, Option.bind_eq_some_iff] at hs
      obtain ⟨s₁, hswap, nId, -, ai, -, hs⟩ := hs
      exact ih (h.swapRandom hswap) hs

theorem AllTyped.step (h : AllTyped s.mapInfo) {e : Event} (he : e.Typed)
    (hs : s.step hashes e = some t) : AllTyped t.mapInfo := by
  cases e with
  | add addr source nTimePenalty nNow nNow' nRnd =>
    obtain ⟨⟨r, s₁⟩, hadd, rfl⟩ := Option.map_eq_some_iff.mp hs
    exact h.add he hadd
  | good addr nTime nRnd => exact h.good hs
  | attempt addr nTime =>
    obtain rfl := Option.some.inj hs
    unfold CAddrMan.attempt
    split
    next => exact h
    next id info hfind =>
      split
      next => exact h
      next => exact h.insert id ((h _ _ (find_eq_some hfind)).update rfl rfl)
  | connected addr nTime =>
    obtain rfl := Option.some.inj hs
    unfold CAddrMan.connected
    split
    next => exact h
    next id info hfind =>
      split
      next => exact h
      next =>
        split
        next => exact h.insert id ((h _ _ (find_eq_some hfind)).update rfl rfl)
        next => exact h
  | getAddr vAddr rnd now =>
    obtain ⟨⟨r, s₁⟩, hget, rfl⟩ := Option.map_eq_some_iff.mp hs
    exact h.getAddrLoop hget

/-! ### Saving and loading -/

theorem SameAddresses.allTyped (h : SameAddresses s t) (hs : AllTyped s.mapInfo)
    (ht : Inv hashes ∅ 0 t) : AllTyped t.mapInfo := by
  intro j info' hj
  have hstored := h.stored info'.ip
  rw [ht.find_eq_some.mpr ⟨hj, rfl⟩] at hstored
  obtain ⟨⟨id, info⟩, hfind, hkept⟩ := Option.map_eq_some_iff.mp hstored.symm
  have hinfo := hs id info (find_eq_some hfind)
  have haddr : (kept info).toCService = (kept info').toCService :=
    congrArg (fun w : CAddrInfo => w.toCService) hkept
  have hsource : (kept info).source = (kept info').source := congrArg CAddrInfo.source hkept
  exact hinfo.update haddr.symm hsource.symm

/-- The states that are reached by the operations, and by loading what has been saved. -/
inductive Reachable (hashes : AddrHashes) : CAddrMan → Prop
  | of (nKey : UInt256) : Reachable hashes (.of nKey)
  | step {s t : CAddrMan} {e : Event} : Reachable hashes s → e.Ok → e.Typed →
      s.step hashes e = some t → Reachable hashes t
  | reload {s t : CAddrMan} {nVersion : ℤ} {nKey nKeyDrawn : UInt256} {bytes rest : List UInt8} :
      Reachable hashes s → IsInt 4 nVersion → s.serialize nVersion = some bytes →
      (CAddrMan.of nKey).unserialize hashes nKeyDrawn (bytes ++ rest) = .done t rest →
      Reachable hashes t

theorem Reachable.inv (h : Reachable hashes s) : Inv hashes ∅ 0 s ∧ AllTyped s.mapInfo := by
  induction h with
  | of nKey => exact ⟨inv_of hashes nKey, fun _ _ hid => by simp [CAddrMan.of] at hid⟩
  | step _ hok htyped hstep ih =>
    obtain ⟨t', hstep', hinv, -⟩ := ih.1.step hok
    obtain rfl := Option.some.inj (hstep.symm.trans hstep')
    exact ⟨hinv, ih.2.step htyped hstep⟩
  | @reload s t nVersion nKey nKeyDrawn bytes rest _ hver hbytes hload ih =>
    obtain ⟨bytes', hbytes', t', hload', hsame, hinv⟩ :=
      ih.1.reload nVersion hver ih.2 nKey nKeyDrawn rest
    obtain rfl := Option.some.inj (hbytes.symm.trans hbytes')
    obtain rfl := (Loaded.done.inj (hload.symm.trans hload')).1
    exact ⟨hinv, hsame.allTyped ih.2 hinv⟩

theorem Reachable.run : ∀ {es : List Event} {s : CAddrMan}, Reachable hashes s →
    (∀ e ∈ es, e.Ok ∧ e.Typed) → s.run hashes es = some t → Reachable hashes t := by
  intro es
  induction es with
  | nil =>
    intro s h _ hrun
    exact Option.some.inj hrun ▸ h
  | cons e es ih =>
    intro s h hes hrun
    rw [CAddrMan.run, List.foldlM_cons] at hrun
    obtain ⟨s₁, hstep, hrun⟩ := Option.bind_eq_some_iff.mp hrun
    obtain ⟨hok, htyped⟩ := hes e List.mem_cons_self
    exact ih (h.step hok htyped hstep) (fun e' he' => hes e' (List.mem_cons_of_mem e he')) hrun

/-- **The address manager survives saving and loading**: what has been written is read back, into
a new manager, with the key, the addresses, their fields and their slots, and the tables are
consistent again. -/
theorem Reachable.survives (h : Reachable hashes s) {nVersion : ℤ} (hver : IsInt 4 nVersion)
    (nKey nKeyDrawn : UInt256) (rest : List UInt8) :
    ∃ bytes, s.serialize nVersion = some bytes ∧
      ∃ t, (CAddrMan.of nKey).unserialize hashes nKeyDrawn (bytes ++ rest) = .done t rest ∧
        SameAddresses s t ∧ t.Consistent hashes ∧ t.check hashes = s.check hashes ∧
        t.check hashes = if s.nKey = 0 then -16 else 0 := by
  obtain ⟨hinv, htyped⟩ := h.inv
  obtain ⟨bytes, hbytes, t, hload, hsame, hinv'⟩ :=
    hinv.reload nVersion hver htyped nKey nKeyDrawn rest
  have hcheck : t.check hashes = if s.nKey = 0 then -16 else 0 := by
    rw [hinv'.check, hsame.nKey]
  exact ⟨bytes, hbytes, t, hload, hsame, hinv'.consistent, hcheck.trans hinv.check.symm, hcheck⟩

/-- An address of 16 bytes that is seen for the first time. -/
def mappedAddress : CAddress :=
  ⟨⟨[0, 0, 0, 0, 0, 0, 0, 0, 0, 0, 255, 255, 250, 1, 1, 1], 8333⟩, 1, 1500000000⟩

/-- It is added, has a success, is written and read back. -/
theorem survives_good : ∃ s, (CAddrMan.of 7).run oneSlot
    [.add mappedAddress mappedAddress.ip 0 1500000000 1500000000 0,
      .good mappedAddress.toCService 1500000100 0] = some s ∧
      ∃ bytes, s.serialize 70208 = some bytes ∧
        ∃ t, (CAddrMan.of 1).unserialize oneSlot 2 (bytes ++ []) = .done t [] ∧
          SameAddresses s t ∧ t.Consistent oneSlot ∧ t.check oneSlot = s.check oneSlot ∧
          t.check oneSlot = if s.nKey = 0 then -16 else 0 := by
  have hes : ∀ e ∈ ([.add mappedAddress mappedAddress.ip 0 1500000000 1500000000 0,
      .good mappedAddress.toCService 1500000100 0] : List Event), e.Ok ∧ e.Typed := by
    intro e he
    obtain rfl | rfl : e = _ ∨ e = _ := by simpa using he
    · exact ⟨trivial, ⟨rfl, by decide, rfl⟩⟩
    · refine ⟨?_, trivial⟩
      show 0 < (1500000100 : Int64).toInt
      decide
  obtain ⟨s, hrun, -⟩ := (inv_of oneSlot 7).run fun e he => (hes e he).1
  exact ⟨s, hrun, ((Reachable.of 7).run hes hrun).survives (by decide) 1 2 []⟩

end CAddrMan

end Stonecoin
