/-
`peers.dat` (`CAddrDB` in `net.cpp`), and the runs of the address manager in which the file is
read and the manager is cleared.

`Clear` leaves `mapInfo` and `mapAddr` alone, and what a stream says is not checked while it is
read.

  * `usable`: where the manager is empty when it is loaded or cleared, and the stream is
        sound, it is usable in every state.
-/
import Stonecoin.AddrManLoading
import Stonecoin.AddrManReachable

namespace Stonecoin

open SlotTables OrderedMaps Readers

/-! ### The file -/

/-- The hash of the stored data, and the magic number of the network. -/
structure PeersEnv where
  hash : List UInt8 → UInt256
  messageStart : List UInt8

/-- What `CAddrDB::Read` deserializes: nothing, where the file cannot be opened or is too short,
where the checksum or the magic number does not match.  A file that is not there is `none`. -/
def peersData (env : PeersEnv) (file : Option (List UInt8)) : Option (List UInt8) := do
  let bytes ← file
  let (vchData, rest) ← take (bytes.length - 32) bytes
  let (hashIn, _) ← readHash rest
  guard (hashIn = env.hash vchData)
  let (pchMsgTmp, ssPeers) ← take 4 vchData
  guard (pchMsgTmp = env.messageStart)
  pure ssPeers

namespace CAddrMan

variable (env : PeersEnv) (hashes : AddrHashes) (s : CAddrMan)

/-- `CAddrDB::Read`; `none` is a failed assertion, or outside of the model. -/
def readPeers (file : Option (List UInt8)) (nKeyDrawn : UInt256) : Option (Bool × CAddrMan) :=
  match peersData env file with
  | none => some (false, s)
  | some ssPeers =>
    match s.unserialize hashes nKeyDrawn ssPeers with
    | .done s _ => some (true, s)
    | .thrown s => some (false, s)
    | .aborted => none
    | .outside => none

def size : ℕ := s.vRandom.length

/-! ### Runs -/

/-- A call: of an operation, of `Clear`, or of `CAddrDB::Read`. -/
inductive Call
  | operation (e : Event)
  | clear (nKey : UInt256)
  | read (file : Option (List UInt8)) (nKeyDrawn : UInt256)

def call : Call → Option CAddrMan
  | .operation e => s.step hashes e
  | .clear nKey => some (s.clear nKey)
  | .read file nKeyDrawn => (s.readPeers env hashes file nKeyDrawn).map Prod.snd

def calls (cs : List Call) : Option CAddrMan := cs.foldlM (call env hashes) s

/-- The call does no harm: `Clear` and the reading find an empty manager, a key that is drawn is
not null, and a stream that is deserialized is sound. -/
def Harmless : Call → Prop
  | .operation e => e.Ok
  | .clear nKey => s.size = 0 ∧ nKey ≠ 0
  | .read file nKeyDrawn => ∀ ssPeers, peersData env file = some ssPeers →
      s.size = 0 ∧ Loadable hashes nKeyDrawn ssPeers

/-- Every call of a run is harmless when its turn comes. -/
def AllHarmless : CAddrMan → List Call → Prop
  | _, [] => True
  | s, c :: cs => Harmless env hashes s c ∧ ∀ t, s.call env hashes c = some t → AllHarmless t cs

variable {env hashes s}

/-! ### Managers that are cleared -/

theorem Inv.clear_eq (h : Inv hashes ∅ 0 s) (hsize : s.size = 0) (nKey : UInt256) :
    s.clear nKey = of nKey := by
  have hentries : s.mapInfo.entries = [] := by
    rw [← List.length_eq_zero_iff, ← h.length_vRandom]
    exact hsize
  have hinfo : s.mapInfo = ∅ := AList.ext hentries
  have haddr : s.mapAddr = ∅ := by
    apply AList.ext
    show s.mapAddr.entries = []
    rw [List.eq_nil_iff_forall_not_mem]
    rintro ⟨ip, id⟩ hmem
    obtain ⟨info, hid, -⟩ := h.addr (AList.mem_lookup_iff.mpr hmem)
    rw [hinfo] at hid
    simp at hid
  simp only [clear, of, hinfo, haddr]

theorem EntryOk.check_clear {id : ℕ} {info : CAddrInfo} (h : EntryOk ∅ s id info)
    (hrefs : info.fInTried = true → info.nRefCount = 0) (nKey : UInt256) :
    (s.clear nKey).checkEntry id info = .error (-14) := by
  have hcard := h.refs
  have hmax := h.max
  have haddr : ¬ ((s.clear nKey).mapAddr.lookup info.ip).getD 0 ≠ id := by
    show ¬ (s.mapAddr.lookup info.ip).getD 0 ≠ id
    simp [h.addr]
  have hrandom : info.nRandomPos < 0 ∨ ((s.clear nKey).vRandom.length : ℤ) ≤ info.nRandomPos ∨
      (s.clear nKey).vRandom[info.nRandomPos.toNat]? ≠ some id := Or.inr (Or.inl h.nonneg)
  unfold checkEntry
  rw [if_neg haddr, if_pos hrandom]
  cases htried : info.fInTried with
  | true =>
    simp [h.success htried, hrefs htried]
    rfl
  | false =>
    have hlive : info.nRefCount ≠ 0 := (h.live htried).resolve_right (Set.notMem_empty id)
    have hrange : ¬ (info.nRefCount < 0 ∨ ADDRMAN_NEW_BUCKETS_PER_ADDRESS < info.nRefCount) := by
      omega
    simp [hlive, hrange]
    rfl

theorem Inv.check_clear (h : Inv hashes ∅ 0 s) (hsize : s.size ≠ 0) (nKey : UInt256) :
    (s.clear nKey).check hashes = -14 := by
  have hperm := perm_sortedEntries (· ≤ ·) s.mapInfo
  cases hentries : sortedEntries (· ≤ ·) s.mapInfo with
  | nil =>
    rw [hentries] at hperm
    refine absurd ?_ hsize
    rw [size, h.length_vRandom, ← hperm.length_eq]
    rfl
  | cons p l =>
    have hid : s.mapInfo.lookup p.1 = some p.2 :=
      AList.mem_lookup_iff.mpr (hperm.mem_iff.mp (hentries ▸ List.mem_cons_self))
    have hfail := (h.entry hid).check_clear (fun htried => h.nRefCount_of_tried hid htried) nKey
    have hloop : (s.clear nKey).checkEntries (p :: l) ∅ ∅ = .error (-14) := by
      rw [checkEntries, hfail]
      rfl
    have htables : (s.clear nKey).checkTables hashes = .error (-14) := by
      unfold checkTables
      rw [show (s.clear nKey).mapInfo = s.mapInfo from rfl, hentries, hloop]
      rfl
    rw [CAddrMan.check, htables]

/-! ### Usable managers -/

theorem Inv.call (h : Inv hashes ∅ 0 s) (hkey : s.nKey ≠ 0) {c : Call}
    (hc : Harmless env hashes s c) :
    ∃ t, s.call env hashes c = some t ∧ Inv hashes ∅ 0 t ∧ t.nKey ≠ 0 := by
  cases c with
  | operation e =>
    obtain ⟨t, hstep, hinv, heq⟩ := h.step hc
    exact ⟨t, hstep, hinv, by rwa [heq]⟩
  | clear nKey =>
    refine ⟨of nKey, ?_, inv_of hashes nKey, hc.2⟩
    rw [CAddrMan.call, h.clear_eq hc.1]
  | read file nKeyDrawn =>
    rw [CAddrMan.call, readPeers]
    cases hdata : peersData env file with
    | none => exact ⟨s, rfl, h, hkey⟩
    | some ssPeers =>
      obtain ⟨hsize, hload⟩ := hc ssPeers hdata
      obtain ⟨t, hinv, hkeyt, ⟨rest, hend⟩ | hend⟩ := hload.endsWell (h.clear_eq hsize nKeyDrawn)
      · exact ⟨t, by simp only [hend, Option.map_some], hinv, hkeyt⟩
      · exact ⟨t, by simp only [hend, Option.map_some], hinv, hkeyt⟩

theorem Inv.calls : ∀ {cs : List Call} {s : CAddrMan}, Inv hashes ∅ 0 s → s.nKey ≠ 0 →
    AllHarmless env hashes s cs →
    ∃ t, s.calls env hashes cs = some t ∧ Inv hashes ∅ 0 t ∧ t.nKey ≠ 0 := by
  intro cs
  induction cs with
  | nil => exact fun {s} h hkey _ => ⟨s, rfl, h, hkey⟩
  | cons c cs ih =>
    intro s h hkey hcs
    obtain ⟨t₁, hcall, h₁, hkey₁⟩ := h.call hkey hcs.1
    obtain ⟨t, hcalls, hinv, hkeyt⟩ := ih h₁ hkey₁ (hcs.2 t₁ hcall)
    refine ⟨t, ?_, hinv, hkeyt⟩
    rw [CAddrMan.calls, List.foldlM_cons, hcall]
    exact hcalls

variable (env hashes) in
/-- **Loading and clearing leave a usable manager**: in a run of harmless calls no `assert` fails,
and every state that is reached satisfies all conditions of `Check_`. -/
theorem usable {nKey : UInt256} (hkey : nKey ≠ 0) {cs : List Call}
    (hcs : AllHarmless env hashes (of nKey) cs) :
    ∃ s, (of nKey).calls env hashes cs = some s ∧ s.Consistent hashes ∧ s.check hashes = 0 := by
  obtain ⟨s, hcalls, hinv, hkeys⟩ := (inv_of hashes nKey).calls hkey hcs
  exact ⟨s, hcalls, hinv.consistent, hinv.check.trans (if_neg hkeys)⟩

/-- Every checksum is null. -/
def plainPeers : PeersEnv := ⟨fun _ => 0, [250, 206, 184, 137]⟩

/-- An entry that has had a success. -/
def succeeded (addr : CAddress) : CAddrInfo :=
  { CAddrInfo.of addr addr.ip with nLastSuccess := 1500000100 }

def reversedAddress : CAddress := { mappedAddress with ip := mappedAddress.ip.reverse }

/-- One new and one tried entry. -/
def storedEntries : List UInt8 :=
  (succeeded mappedAddress).write 70208 ++ (succeeded reversedAddress).write 70208

/-- A file with them, and without the lists of the buckets. -/
def storedPeers : List UInt8 :=
  plainPeers.messageStart ++ ([1, 32] ++ writeHash 5 ++ writeInt 4 1 ++ writeInt 4 1 ++
    writeInt 4 (2 ^ 30) ++ storedEntries) ++ writeHash 0

theorem loadable_storedPeers (nKeyDrawn : UInt256) : ∀ ssPeers,
    peersData plainPeers (some storedPeers) = some ssPeers → Loadable oneSlot nKeyDrawn ssPeers := by
  intro ssPeers h
  have hdata : peersData plainPeers (some storedPeers) = some ([1, 32] ++ writeHash 5 ++
      writeInt 4 1 ++ writeInt 4 1 ++ writeInt 4 (2 ^ 30) ++ storedEntries) := by decide +kernel
  obtain rfl := Option.some.inj (hdata.symm.trans h)
  have hkey : readKey ([1, 32] ++ writeHash 5 ++ writeInt 4 1 ++ writeInt 4 1 ++
      writeInt 4 (2 ^ 30) ++ storedEntries) = some ((1, 5), writeInt 4 1 ++ writeInt 4 1 ++
        writeInt 4 (2 ^ 30) ++ storedEntries) := by decide +kernel
  have hnNew : readInt 4 (writeInt 4 1 ++ writeInt 4 1 ++ writeInt 4 (2 ^ 30) ++ storedEntries) =
      some (((1 : ℕ) : ℤ), writeInt 4 1 ++ writeInt 4 (2 ^ 30) ++ storedEntries) := by
    decide +kernel
  have hnTried : readInt 4 (writeInt 4 1 ++ writeInt 4 (2 ^ 30) ++ storedEntries) =
      some (((1 : ℕ) : ℤ), writeInt 4 (2 ^ 30) ++ storedEntries) := by decide +kernel
  have hbuckets : readInt 4 (writeInt 4 (2 ^ 30) ++ storedEntries) =
      some (2 ^ 30, storedEntries) := by decide +kernel
  have hnew : times (CAddrInfo.read .default) 1 storedEntries = some ([succeeded mappedAddress],
      (succeeded reversedAddress).write 70208) := by decide +kernel
  have htried : times (CAddrInfo.read .default) 1 ((succeeded reversedAddress).write 70208) =
      some ([succeeded reversedAddress], []) := by decide +kernel
  exact .key hkey (by decide) (.entries hnNew hnTried hbuckets hnew htried
    ⟨by decide +kernel, by decide +kernel, by decide +kernel⟩ (Or.inr (by decide +kernel)))

/-- The manager is cleared, finds no file, is loaded, and hears of a success. -/
theorem usable_storedPeers : ∃ s, (of 7).calls plainPeers oneSlot
    [.clear 9, .read none 1, .read (some storedPeers) 2,
      .operation (.good mappedAddress.toCService 1500000200 0)] = some s ∧
      s.Consistent oneSlot ∧ s.check oneSlot = 0 := by
  refine usable plainPeers oneSlot (show (7 : UInt256) ≠ 0 by decide) ?_
  refine ⟨⟨rfl, by decide⟩, fun t ht => ?_⟩
  obtain rfl := Option.some.inj ht
  refine ⟨fun ssPeers hnone => ?_, fun t ht => ?_⟩
  · cases hnone
  · obtain rfl := Option.some.inj ht
    refine ⟨fun ssPeers hdata => ⟨rfl, loadable_storedPeers 2 ssPeers hdata⟩, fun t _ => ?_⟩
    refine ⟨?_, fun _ _ => trivial⟩
    show 0 < (1500000200 : Int64).toInt
    decide

/-- A manager that holds one address is cleared: the check fails, and when the address is heard of
again and has a success, an `assert` does. -/
theorem clear_unusable : ∃ s, (of 7).calls plainPeers oneSlot
    [.operation (.add firstAddress [250, 1, 2, 1] 0 1500000000 1500000000 0)] = some s ∧
      (s.clear 9).check oneSlot = -14 ∧ (s.clear 9).run oneSlot
        [.add { firstAddress with nTime := 1500001000 } [250, 1, 2, 1] 0 1500001000 1500001000 0,
          .good firstAddress.toCService 1500001100 0] = none := by
  have hsize : ((of 7).calls plainPeers oneSlot
      [.operation (.add firstAddress [250, 1, 2, 1] 0 1500000000 1500000000 0)]).map size =
        some 1 := by decide +kernel
  have hnone : (((of 7).calls plainPeers oneSlot
      [.operation (.add firstAddress [250, 1, 2, 1] 0 1500000000 1500000000 0)]).bind fun s =>
        (s.clear 9).run oneSlot
          [.add { firstAddress with nTime := 1500001000 } [250, 1, 2, 1] 0 1500001000 1500001000 0,
            .good firstAddress.toCService 1500001100 0]).isNone = true := by decide +kernel
  obtain ⟨s, hs, hone⟩ := Option.map_eq_some_iff.mp hsize
  have hharmless : AllHarmless plainPeers oneSlot (of 7)
      [.operation (.add firstAddress [250, 1, 2, 1] 0 1500000000 1500000000 0)] :=
    ⟨trivial, fun _ _ => trivial⟩
  obtain ⟨t, hcalls, hinv, -⟩ := (inv_of oneSlot 7).calls (by decide) hharmless
  obtain rfl := Option.some.inj (hs.symm.trans hcalls)
  rw [hs] at hnone
  exact ⟨s, hs, hinv.check_clear (by rw [hone]; decide) 9, Option.isNone_iff_eq_none.mp hnone⟩

end CAddrMan

end Stonecoin
