/-
The address manager (`addrman.h`, `addrman.cpp`): a map of numbered entries, an index of
their addresses, a randomly ordered vector of their numbers, and two tables of slots.

An `assert` that fails, and a number that `mapInfo` is indexed with and does not have, are
`none`; the numbers of entries are not bounded.  What the hash functions and the random
generator return is a parameter.
-/
import Stonecoin.SlotTables
import Stonecoin.Masternode

namespace Stonecoin

abbrev ADDRMAN_TRIED_BUCKET_COUNT : ℕ := 256
abbrev ADDRMAN_NEW_BUCKET_COUNT : ℕ := 1024
abbrev ADDRMAN_BUCKET_SIZE : ℕ := 64
def ADDRMAN_NEW_BUCKETS_PER_ADDRESS : ℤ := 8
def ADDRMAN_HORIZON_DAYS : ℤ := 30
def ADDRMAN_RETRIES : ℤ := 3
def ADDRMAN_MAX_FAILURES : ℤ := 10
def ADDRMAN_MIN_FAIL_DAYS : ℤ := 7
def ADDRMAN_GETADDR_MAX_PCT : ℕ := 23
def ADDRMAN_GETADDR_MAX : ℕ := 2500

/-! ### Addresses -/

structure CAddress extends CService where
  nServices : UInt64
  nTime : UInt32
deriving DecidableEq

structure CAddrInfo extends CAddress where
  source : List UInt8
  nLastTry : Int64
  nLastSuccess : Int64
  nAttempts : Int32
  nRefCount : ℤ
  fInTried : Bool
  nRandomPos : ℤ
deriving DecidableEq

def CAddrInfo.of (addr : CAddress) (addrSource : List UInt8) : CAddrInfo where
  toCAddress := addr
  source := addrSource
  nLastTry := 0
  nLastSuccess := 0
  nAttempts := 0
  nRefCount := 0
  fInTried := false
  nRandomPos := -1

def CAddrInfo.isTerrible (info : CAddrInfo) (nNow : ℤ) : Bool :=
  if info.nLastTry ≠ 0 ∧ nNow - 60 ≤ info.nLastTry.toInt then false
  else if nNow + 10 * 60 < info.nTime.toNat then true
  else if info.nTime = 0 ∨ ADDRMAN_HORIZON_DAYS * 24 * 60 * 60 < nNow - info.nTime.toNat then true
  else if info.nLastSuccess = 0 ∧ ADDRMAN_RETRIES ≤ info.nAttempts.toInt then true
  else if ADDRMAN_MIN_FAIL_DAYS * 24 * 60 * 60 < nNow - info.nLastSuccess.toInt ∧
      ADDRMAN_MAX_FAILURES ≤ info.nAttempts.toInt then true
  else false

/-- The functions that hash an address, and whether it is routable. -/
structure AddrHashes where
  getTriedBucket : UInt256 → CService → Fin ADDRMAN_TRIED_BUCKET_COUNT
  getNewBucket : UInt256 → CService → List UInt8 → Fin ADDRMAN_NEW_BUCKET_COUNT
  getBucketPosition : UInt256 → Bool → ℕ → CService → Fin ADDRMAN_BUCKET_SIZE
  isRoutable : CService → Bool

abbrev TriedSlot := Fin ADDRMAN_TRIED_BUCKET_COUNT × Fin ADDRMAN_BUCKET_SIZE

abbrev NewSlot := Fin ADDRMAN_NEW_BUCKET_COUNT × Fin ADDRMAN_BUCKET_SIZE

structure CAddrMan where
  nKey : UInt256
  nIdCount : ℕ
  mapInfo : AList fun _ : ℕ => CAddrInfo
  mapAddr : AList fun _ : List UInt8 => ℕ
  vRandom : List ℕ
  nTried : ℤ
  vvTried : TriedSlot → Option ℕ
  nNew : ℤ
  vvNew : NewSlot → Option ℕ

namespace CAddrMan

def of (nKey : UInt256) : CAddrMan where
  nKey := nKey
  nIdCount := 0
  mapInfo := ∅
  mapAddr := ∅
  vRandom := []
  nTried := 0
  vvTried := fun _ => none
  nNew := 0
  vvNew := fun _ => none

variable (hashes : AddrHashes) (s : CAddrMan)

def triedSlot (addr : CService) : TriedSlot :=
  let nKBucket := hashes.getTriedBucket s.nKey addr
  (nKBucket, hashes.getBucketPosition s.nKey false nKBucket addr)

def newSlotIn (addr : CService) (nUBucket : Fin ADDRMAN_NEW_BUCKET_COUNT) : NewSlot :=
  (nUBucket, hashes.getBucketPosition s.nKey true nUBucket addr)

def newSlot (addr : CService) (source : List UInt8) : NewSlot :=
  newSlotIn hashes s addr (hashes.getNewBucket s.nKey addr source)

/-! ### Entries -/

def setInfo (nId : ℕ) (info : CAddrInfo) : CAddrMan :=
  { s with mapInfo := s.mapInfo.insert nId info }

def find (ip : List UInt8) : Option (ℕ × CAddrInfo) := do
  let nId ← s.mapAddr.lookup ip
  let info ← s.mapInfo.lookup nId
  pure (nId, info)

def create (addr : CAddress) (addrSource : List UInt8) : CAddrMan :=
  { s with
    nIdCount := s.nIdCount + 1
    mapInfo := s.mapInfo.insert s.nIdCount
      { CAddrInfo.of addr addrSource with nRandomPos := s.vRandom.length }
    mapAddr := s.mapAddr.insert addr.ip s.nIdCount
    vRandom := s.vRandom ++ [s.nIdCount] }

def swapRandom (nRndPos1 nRndPos2 : ℤ) : Option CAddrMan :=
  if nRndPos1 = nRndPos2 then some s
  else do
    guard ((0 ≤ nRndPos1 ∧ nRndPos1 < s.vRandom.length) ∧
      0 ≤ nRndPos2 ∧ nRndPos2 < s.vRandom.length)
    let nId1 ← s.vRandom[nRndPos1.toNat]?
    let nId2 ← s.vRandom[nRndPos2.toNat]?
    let info1 ← s.mapInfo.lookup nId1
    let info2 ← s.mapInfo.lookup nId2
    pure { s with
      mapInfo := (s.mapInfo.insert nId1 { info1 with nRandomPos := nRndPos2 }).insert nId2
        { info2 with nRandomPos := nRndPos1 }
      vRandom := (s.vRandom.set nRndPos1.toNat nId2).set nRndPos2.toNat nId1 }

def delete (nId : ℕ) : Option CAddrMan := do
  let info ← s.mapInfo.lookup nId
  guard (info.fInTried = false)
  guard (info.nRefCount = 0)
  let s ← s.swapRandom info.nRandomPos (s.vRandom.length - 1)
  pure { s with
    vRandom := s.vRandom.dropLast
    mapAddr := s.mapAddr.erase info.ip
    mapInfo := s.mapInfo.erase nId
    nNew := s.nNew - 1 }

/-! ### The tables -/

def clearNew (slot : NewSlot) : Option CAddrMan :=
  match s.vvNew slot with
  | none => some s
  | some nIdDelete => do
    let infoDelete ← s.mapInfo.lookup nIdDelete
    guard (0 < infoDelete.nRefCount)
    let s := { s.setInfo nIdDelete { infoDelete with nRefCount := infoDelete.nRefCount - 1 } with
      vvNew := Function.update s.vvNew slot none }
    if infoDelete.nRefCount - 1 = 0 then s.delete nIdDelete else pure s

/-- A slot of the new table, and the reference that it counts for, are given up. -/
def unlink (nId : ℕ) (t : (NewSlot → Option ℕ) × ℤ) (slot : NewSlot) :
    (NewSlot → Option ℕ) × ℤ :=
  if t.1 slot = some nId then (Function.update t.1 slot none, t.2 - 1) else t

/-- The entry is removed from all new buckets. -/
def unlinkAll (nId : ℕ) (info : CAddrInfo) : (NewSlot → Option ℕ) × ℤ :=
  ((List.finRange ADDRMAN_NEW_BUCKET_COUNT).map (newSlotIn hashes s info.toCService)).foldl
    (unlink nId) (s.vvNew, info.nRefCount)

def leaveTried (slot : TriedSlot) (nId : ℕ) (info : CAddrInfo) : CAddrMan :=
  { s.setInfo nId { info with fInTried := false } with
    vvTried := Function.update s.vvTried slot none
    nTried := s.nTried - 1 }

def enterTried (slot : TriedSlot) (nId : ℕ) (info : CAddrInfo) : CAddrMan :=
  { s.setInfo nId { info with fInTried := true } with
    vvTried := Function.update s.vvTried slot (some nId)
    nTried := s.nTried + 1 }

def enterNew (slot : NewSlot) (nId : ℕ) (info : CAddrInfo) (nRefCount : ℤ) : CAddrMan :=
  { s.setInfo nId { info with nRefCount := nRefCount } with
    vvNew := Function.update s.vvNew slot (some nId) }

/-- A tried entry is moved back to the new table. -/
def evict (slot : TriedSlot) (nIdEvict : ℕ) : Option CAddrMan := do
  let infoOld ← s.mapInfo.lookup nIdEvict
  let s := s.leaveTried slot nIdEvict infoOld
  let nUSlot := newSlot hashes s infoOld.toCService infoOld.source
  let s ← s.clearNew nUSlot
  guard (s.vvNew nUSlot = none)
  let infoOld ← s.mapInfo.lookup nIdEvict
  pure { s.enterNew nUSlot nIdEvict infoOld 1 with nNew := s.nNew + 1 }

def leaveNew (nId : ℕ) (info : CAddrInfo) : CAddrMan :=
  let t := unlinkAll hashes s nId info
  { s.setInfo nId { info with nRefCount := t.2 } with
    vvNew := t.1
    nNew := s.nNew - 1 }

/-- The tried entry in the slot, if there is one, is moved back. -/
def makeRoom (slot : TriedSlot) : Option CAddrMan :=
  match s.vvTried slot with
  | none => some s
  | some nIdEvict => s.evict hashes slot nIdEvict

def makeTried (nId : ℕ) : Option CAddrMan := do
  let info ← s.mapInfo.lookup nId
  guard ((unlinkAll hashes s nId info).2 = 0)
  let slot := triedSlot hashes s info.toCService
  let s ← (leaveNew hashes s nId info).makeRoom hashes slot
  guard (s.vvTried slot = none)
  let info ← s.mapInfo.lookup nId
  pure (s.enterTried slot nId info)

/-! ### The operations -/

/-- The new buckets are searched for the entry from a random one on. -/
def inNewBucket (nId : ℕ) (info : CAddrInfo) (nRnd : ℕ) : Bool :=
  (List.finRange ADDRMAN_NEW_BUCKET_COUNT).any fun n =>
    s.vvNew (newSlotIn hashes s info.toCService (n + Fin.ofNat _ nRnd)) = some nId

def good (addr : CService) (nTime : Int64) (nRnd : ℕ) : Option CAddrMan :=
  match s.find addr.ip with
  | none => some s
  | some (nId, info) =>
    if info.toCService ≠ addr then some s
    else
      let info := { info with nLastSuccess := nTime, nLastTry := nTime, nAttempts := 0 }
      let s := s.setInfo nId info
      if info.fInTried then some s
      else if inNewBucket hashes s nId info nRnd = false then some s
      else s.makeTried hashes nId

/-- What `Add_` writes to an entry that it finds. -/
def refresh (addr : CAddress) (nTimePenalty nNow : ℤ) (info : CAddrInfo) : CAddrInfo :=
  let fCurrentlyOnline : Bool := nNow - addr.nTime.toNat < 24 * 60 * 60
  let nUpdateInterval : ℤ := if fCurrentlyOnline then 60 * 60 else 24 * 60 * 60
  { info with
    nTime :=
      if addr.nTime ≠ 0 ∧ (info.nTime = 0 ∨
          (info.nTime.toNat : ℤ) < addr.nTime.toNat - nUpdateInterval - nTimePenalty) then
        UInt32.ofInt (max 0 (addr.nTime.toNat - nTimePenalty))
      else info.nTime
    nServices := info.nServices ||| addr.nServices }

/-- Whether `Add_` gives an entry that it finds no further reference. -/
def keepsReferences (addr : CAddress) (info : CAddrInfo) (nRnd : ℕ) : Bool :=
  if addr.nTime = 0 ∨ (info.nTime ≠ 0 ∧ addr.nTime ≤ info.nTime) then true
  else if info.fInTried then true
  else if info.nRefCount = ADDRMAN_NEW_BUCKETS_PER_ADDRESS then true
  else
    let nFactor := 2 ^ info.nRefCount.toNat
    1 < nFactor ∧ nRnd % nFactor ≠ 0

/-- Whether the slot is free or may be taken over from the entry in it. -/
def fInsert (slot : NewSlot) (nNow : ℤ) (pinfo : CAddrInfo) : Option Bool :=
  match s.vvNew slot with
  | none => some true
  | some nIdExisting => do
    let infoExisting ← s.mapInfo.lookup nIdExisting
    pure (infoExisting.isTerrible nNow || (1 < infoExisting.nRefCount ∧ pinfo.nRefCount = 0))

def takeSlot (slot : NewSlot) (nId : ℕ) : Option CAddrMan := do
  let s ← s.clearNew slot
  let pinfo ← s.mapInfo.lookup nId
  pure (s.enterNew slot nId pinfo (pinfo.nRefCount + 1))

/-- The end of `Add_`: the entry is put into the slot that its address and the source dictate. -/
def place (source : List UInt8) (nNow : ℤ) (nId : ℕ) : Option CAddrMan := do
  let pinfo ← s.mapInfo.lookup nId
  let slot := newSlot hashes s pinfo.toCService source
  if s.vvNew slot = some nId then some s
  else do
    let fInsert ← s.fInsert slot nNow pinfo
    if fInsert then s.takeSlot slot nId
    else if pinfo.nRefCount = 0 then s.delete nId
    else some s

/-- `Add_`, with the adjusted time at both calls. -/
def add (addr : CAddress) (source : List UInt8) (nTimePenalty nNow nNow' : ℤ) (nRnd : ℕ) :
    Option (Bool × CAddrMan) :=
  if hashes.isRoutable addr.toCService = false then some (false, s)
  else
    match s.find addr.ip with
    | some (nId, info) =>
      let info := refresh addr nTimePenalty nNow info
      let s := s.setInfo nId info
      if keepsReferences addr info nRnd then some (false, s)
      else (s.place hashes source nNow' nId).map fun s => (false, s)
    | none =>
      let nId := s.nIdCount
      -- the entry gets its time right after it has been created
      let addr := { addr with nTime := UInt32.ofInt (max 0 (addr.nTime.toNat - nTimePenalty)) }
      let s := s.create addr source
      let s := { s with nNew := s.nNew + 1 }
      (s.place hashes source nNow' nId).map fun s => (true, s)

def attempt (addr : CService) (nTime : Int64) : CAddrMan :=
  match s.find addr.ip with
  | none => s
  | some (nId, info) =>
    if info.toCService ≠ addr then s
    else s.setInfo nId { info with nLastTry := nTime, nAttempts := info.nAttempts + 1 }

def connected (addr : CService) (nTime : Int64) : CAddrMan :=
  match s.find addr.ip with
  | none => s
  | some (nId, info) =>
    if info.toCService ≠ addr then s
    else if 20 * 60 < nTime.toInt - info.nTime.toNat then
      s.setInfo nId { info with nTime := UInt32.ofInt nTime.toInt }
    else s

/-- The loop of `GetAddr_`, from the `n`th position on; `k` positions are left. -/
def getAddrLoop (nNodes : ℕ) (rnd : ℕ → ℕ) (now : ℕ → ℤ) :
    ℕ → ℕ → CAddrMan → List CAddress → Option (List CAddress × CAddrMan)
  | 0, _, s, vAddr => some (vAddr, s)
  | k + 1, n, s, vAddr =>
    if nNodes ≤ vAddr.length then some (vAddr, s)
    else do
      let nRndPos := rnd n % (s.vRandom.length - n) + n
      let s ← s.swapRandom n nRndPos
      let nId ← s.vRandom[n]?
      let ai ← s.mapInfo.lookup nId
      let vAddr := if ai.isTerrible (now n) = false then vAddr ++ [ai.toCAddress] else vAddr
      getAddrLoop nNodes rnd now k (n + 1) s vAddr

def getAddr (vAddr : List CAddress) (rnd : ℕ → ℕ) (now : ℕ → ℤ) :
    Option (List CAddress × CAddrMan) :=
  let nNodes := min (ADDRMAN_GETADDR_MAX_PCT * s.vRandom.length / 100) ADDRMAN_GETADDR_MAX
  getAddrLoop nNodes rnd now s.vRandom.length 0 s vAddr

end CAddrMan

end Stonecoin
