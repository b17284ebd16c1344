/-
The stored form of the address manager: `Serialize` and `Unserialize` of `addrman.h`, and the
form of an entry on disk (`protocol.h`, `netbase.h`).

The entries are numbered anew: the new ones first, then the tried ones.  The new table is
written as the numbers in each bucket; the slot in the bucket, and the slots of the tried
entries, are dictated by the key.
-/
import Stonecoin.AddrManChecks
import Stonecoin.Streams

namespace Stonecoin

open Readers OrderedMaps

/-! ### Entries on disk -/

/-- `portN`, in network byte order. -/
def writePort (port : ℕ) : List UInt8 := [UInt8.ofNat (port / 256), UInt8.ofNat (port % 256)]

def readPort : Reader UInt8 ℕ := do
  let high ← next
  let low ← next
  pure (high.toNat * 256 + low.toNat)

namespace CAddrInfo

def default : CAddrInfo :=
  .of ⟨⟨List.replicate 16 0, 0⟩, 1, 100000000⟩ (List.replicate 16 0)

/-- `s << info`, on disk. -/
def write (nVersion : ℤ) (info : CAddrInfo) : List UInt8 :=
  writeInt 4 nVersion ++ (writeLE 4 info.nTime.toNat ++ (writeLE 8 info.nServices.toNat ++
    (info.ip ++ (writePort info.port ++ (info.source ++
      (writeInt 8 info.nLastSuccess.toInt ++ writeInt 4 info.nAttempts.toInt))))))

/-- `s >> info`, on disk. -/
def read (info : CAddrInfo) : Reader UInt8 CAddrInfo := do
  let _nVersion ← readInt 4
  let nTime ← readNum 4
  let nServices ← readNum 8
  let ip ← take 16
  let port ← readPort
  let source ← take 16
  let nLastSuccess ← readInt 8
  let nAttempts ← readInt 4
  pure { info with
    ip := ip
    port := port
    nServices := UInt64.ofNat nServices
    nTime := UInt32.ofNat nTime
    source := source
    nLastSuccess := Int64.ofInt nLastSuccess
    nAttempts := Int32.ofInt nAttempts }

/-- An address has 16 bytes, and a port two. -/
structure Typed (info : CAddrInfo) : Prop where
  ip : info.ip.length = 16
  port : info.port < 256 ^ 2
  source : info.source.length = 16

/-- What is kept in memory only is as it was. -/
def restored (info old : CAddrInfo) : CAddrInfo :=
  { info with
    nLastTry := old.nLastTry
    nRefCount := old.nRefCount
    fInTried := old.fInTried
    nRandomPos := old.nRandomPos }

end CAddrInfo

theorem reads_port {port : ℕ} (h : port < 256 ^ 2) : Reads readPort (writePort port) port := by
  have hhigh : (UInt8.ofNat (port / 256)).toNat = port / 256 :=
    UInt8.toNat_ofNat_of_lt (Nat.div_lt_of_lt_mul h)
  have hlow : (UInt8.ofNat (port % 256)).toNat = port % 256 :=
    UInt8.toNat_ofNat_of_lt (Nat.mod_lt port (by decide))
  have hsum : Reads (pure (port / 256 * 256 + port % 256) : Reader UInt8 ℕ) [] port := by
    rw [Nat.div_add_mod']
    exact .pure port
  show Reads readPort ([UInt8.ofNat (port / 256)] ++ ([UInt8.ofNat (port % 256)] ++ [])) port
  refine (Reads.next _).bind ((Reads.next _).bind ?_)
  rw [hhigh, hlow]
  exact hsum

theorem CAddrInfo.reads {info : CAddrInfo} (h : info.Typed) {nVersion : ℤ} (hver : IsInt 4 nVersion)
    (old : CAddrInfo) : Reads (read old) (info.write nVersion) (info.restored old) := by
  have hip : Reads (take 16) info.ip info.ip := by
    have htake := Reads.take info.ip
    rwa [h.ip] at htake
  have hsource : Reads (take 16) info.source info.source := by
    have htake := Reads.take info.source
    rwa [h.source] at htake
  have hsuccess : IsInt 8 info.nLastSuccess.toInt := by
    have hle := info.nLastSuccess.le_toInt
    have hlt := info.nLastSuccess.toInt_lt
    constructor
    · omega
    · omega
  have hattempts : IsInt 4 info.nAttempts.toInt := by
    have hle := info.nAttempts.le_toInt
    have hlt := info.nAttempts.toInt_lt
    constructor
    · omega
    · omega
  have htime : info.nTime.toNat < 256 ^ 4 := lt_of_lt_of_eq info.nTime.toNat_lt (by decide)
  have hservices : info.nServices.toNat < 256 ^ 8 :=
    lt_of_lt_of_eq info.nServices.toNat_lt (by decide)
  have hfields : info.restored old = { old with
      ip := info.ip
      port := info.port
      nServices := UInt64.ofNat info.nServices.toNat
      nTime := UInt32.ofNat info.nTime.toNat
      source := info.source
      nLastSuccess := Int64.ofInt info.nLastSuccess.toInt
      nAttempts := Int32.ofInt info.nAttempts.toInt } := by
    simp [restored]
  rw [hfields]
  refine (reads_int hver).bind ((reads_num htime).bind ((reads_num hservices).bind
    (hip.bind ((reads_port h.port).bind (hsource.bind ((reads_int hsuccess).bind ?_))))))
  exact (reads_int hattempts).bind_pure _

namespace CAddrMan

variable (hashes : AddrHashes) (s : CAddrMan) (nVersion : ℤ)

/-! ### Serialize -/

/-- The loop that writes the new entries and fills `mapUnkIds`. -/
def writeNew : List (Σ _ : ℕ, CAddrInfo) → ℕ → (AList fun _ : ℕ => ℕ) → List UInt8 →
    Option (List UInt8 × AList fun _ : ℕ => ℕ)
  | [], _, mapUnkIds, w => some (w, mapUnkIds)
  | ⟨n, info⟩ :: l, nIds, mapUnkIds, w =>
    let mapUnkIds := mapUnkIds.insert n nIds
    if info.nRefCount ≠ 0 then
      if (nIds : ℤ) = s.nNew then none
      else writeNew l (nIds + 1) mapUnkIds (w ++ info.write nVersion)
    else writeNew l nIds mapUnkIds w

def writeTried : List (Σ _ : ℕ, CAddrInfo) → ℕ → List UInt8 → Option (List UInt8)
  | [], _, w => some w
  | ⟨_, info⟩ :: l, nIds, w =>
    if info.fInTried then
      if (nIds : ℤ) = s.nTried then none
      else writeTried l (nIds + 1) (w ++ info.write nVersion)
    else writeTried l nIds w

def inBucket (bucket : Fin ADDRMAN_NEW_BUCKET_COUNT) : List ℕ :=
  (List.finRange ADDRMAN_BUCKET_SIZE).filterMap fun i => s.vvNew (bucket, i)

def writeBucket (mapUnkIds : AList fun _ : ℕ => ℕ) (bucket : Fin ADDRMAN_NEW_BUCKET_COUNT) :
    List UInt8 :=
  writeInt 4 (s.inBucket bucket).length ++
    (s.inBucket bucket).flatMap fun nId => writeInt 4 ((mapUnkIds.lookup nId).getD 0 : ℕ)

/-- `ADDRMAN_NEW_BUCKET_COUNT ^ (1 << 30)`. -/
def flipped (nUBuckets : ℤ) : ℤ := (Int32.ofInt nUBuckets ^^^ (1 : Int32) <<< 30).toInt

/-- `Serialize`; `none` is a failed assertion. -/
def serialize : Option (List UInt8) := do
  let entries := sortedEntries (· ≤ ·) s.mapInfo
  let (new, mapUnkIds) ← s.writeNew nVersion entries 0 ∅ []
  let tried ← s.writeTried nVersion entries 0 []
  pure ([1] ++ ([32] ++ (writeHash s.nKey ++ (writeInt 4 s.nNew ++ (writeInt 4 s.nTried ++
    (writeInt 4 (flipped ADDRMAN_NEW_BUCKET_COUNT) ++ (new ++ (tried ++
      (List.finRange ADDRMAN_NEW_BUCKET_COUNT).flatMap (s.writeBucket mapUnkIds)))))))))

/-! ### Unserialize -/

/-- How the reading ends: with a manager and what is left of the stream, with an exception that
leaves a manager behind, or with a failed assertion.  With a negative number of new entries the
tried ones would get negative numbers, which are outside of the model. -/
inductive Loaded
  | done (s : CAddrMan) (rest : List UInt8)
  | thrown (s : CAddrMan)
  | aborted
  | outside

/-- One part after the other. -/
def Loaded.andThen (l : Loaded) (f : CAddrMan → List UInt8 → Loaded) : Loaded :=
  match l with
  | .done s rest => f s rest
  | .thrown s => .thrown s
  | .aborted => .aborted
  | .outside => .outside

theorem andThen_eq {l : Loaded} {t : CAddrMan} {bytes : List UInt8} (h : l = .done t bytes)
    (f : CAddrMan → List UInt8 → Loaded) : l.andThen f = f t bytes := by
  rw [h]
  rfl

def reading {α : Type} (r : Reader UInt8 α) (bytes : List UInt8)
    (f : α → List UInt8 → Loaded) : Loaded :=
  match r bytes with
  | none => .thrown s
  | some (a, rest) => f a rest

/-- `Clear`, with the key that is drawn: `mapInfo` and `mapAddr` are left alone. -/
def clear (nKey : UInt256) : CAddrMan :=
  { s with
    vRandom := []
    nKey := nKey
    vvNew := fun _ => none
    vvTried := fun _ => none
    nIdCount := 0
    nTried := 0
    nNew := 0 }

/-- A new entry that has been read gets the number `n`.  Where the new table cannot be used, it
also gets the slot for its source. -/
def putNew (fUsable : Bool) (n : ℕ) (info : CAddrInfo) : CAddrMan :=
  let info := { info with nRandomPos := s.vRandom.length }
  let s := { s with
    mapAddr := s.mapAddr.insert info.ip n
    vRandom := s.vRandom ++ [n] }
  let slot := s.newSlot hashes info.toCService info.source
  if fUsable = false ∧ s.vvNew slot = none then
    s.enterNew slot n info (info.nRefCount + 1)
  else s.setInfo n info

/-- The new entries are read.  Of an entry that is cut off, nothing is kept. -/
def readNewEntries (fUsable : Bool) : ℕ → ℕ → CAddrMan → List UInt8 → Loaded
  | 0, _, s, bytes => .done s bytes
  | k + 1, n, s, bytes =>
    let old := (s.mapInfo.lookup n).getD .default
    (s.setInfo n old).reading (CAddrInfo.read old) bytes fun info bytes =>
      readNewEntries fUsable k (n + 1) ((s.setInfo n old).putNew hashes fUsable n info) bytes

def putTried (slot : TriedSlot) (info : CAddrInfo) : CAddrMan :=
  { s with
    vRandom := s.vRandom ++ [s.nIdCount]
    mapInfo := s.mapInfo.insert s.nIdCount
      { info with nRandomPos := s.vRandom.length, fInTried := true }
    mapAddr := s.mapAddr.insert info.ip s.nIdCount
    vvTried := Function.update s.vvTried slot (some s.nIdCount)
    nIdCount := s.nIdCount + 1 }

def readTriedEntries : ℕ → ℕ → CAddrMan → List UInt8 → Loaded
  | 0, nLost, s, bytes => .done { s with nTried := s.nTried - nLost } bytes
  | k + 1, nLost, s, bytes =>
    s.reading (CAddrInfo.read .default) bytes fun info bytes =>
      let slot := s.triedSlot hashes info.toCService
      if s.vvTried slot = none then readTriedEntries k nLost (s.putTried slot info) bytes
      else readTriedEntries k (nLost + 1) s bytes

/-- A number that has been read for a bucket: the entry takes its slot, if it is free. -/
def putPosition (fUsable : Bool) (bucket : ℕ) (nIndex : ℤ) : CAddrMan :=
  if 0 ≤ nIndex ∧ nIndex < s.nNew then
    let info := (s.mapInfo.lookup nIndex.toNat).getD .default
    if h : fUsable = true ∧ bucket < ADDRMAN_NEW_BUCKET_COUNT then
      let slot := s.newSlotIn hashes info.toCService ⟨bucket, h.2⟩
      if s.vvNew slot = none ∧ info.nRefCount < ADDRMAN_NEW_BUCKETS_PER_ADDRESS then
        s.enterNew slot nIndex.toNat info (info.nRefCount + 1)
      else s
    else s
  else s

def readPositions (fUsable : Bool) (bucket : ℕ) : ℕ → CAddrMan → List UInt8 → Loaded
  | 0, s, bytes => .done s bytes
  | k + 1, s, bytes =>
    s.reading (readInt 4) bytes fun nIndex bytes =>
      readPositions fUsable bucket k (s.putPosition hashes fUsable bucket nIndex) bytes

def readBuckets (fUsable : Bool) : ℕ → ℕ → CAddrMan → List UInt8 → Loaded
  | 0, _, s, bytes => .done s bytes
  | k + 1, bucket, s, bytes =>
    s.reading (readInt 4) bytes fun nSize bytes =>
      (readPositions hashes fUsable bucket nSize.toNat s bytes).andThen
        (readBuckets fUsable k (bucket + 1))

/-- The new entries without a reference are deleted. -/
def prune : List ℕ → CAddrMan → Option CAddrMan
  | [], s => some s
  | n :: l, s =>
    match s.mapInfo.lookup n with
    | none => prune l s
    | some info =>
      if info.fInTried = false ∧ info.nRefCount = 0 then (s.delete n).bind (prune l)
      else prune l s

/-- `Unserialize`, with the key that `Clear` draws.  `Check` does nothing in normal builds. -/
def unserialize (nKeyDrawn : UInt256) (bytes : List UInt8) : Loaded :=
  let s := s.clear nKeyDrawn
  s.reading next bytes fun nVersion bytes =>
  s.reading next bytes fun nKeySize bytes =>
  if nKeySize ≠ 32 then .thrown s
  else
    s.reading readHash bytes fun nKey bytes =>
    let s := { s with nKey := nKey }
    s.reading (readInt 4) bytes fun nNew bytes =>
    let s := { s with nNew := nNew }
    s.reading (readInt 4) bytes fun nTried bytes =>
    let s := { s with nTried := nTried }
    s.reading (readInt 4) bytes fun nUBuckets bytes =>
    let nUBuckets := if nVersion ≠ 0 then flipped nUBuckets else nUBuckets
    let fUsable : Bool := nVersion = 1 ∧ nUBuckets = ADDRMAN_NEW_BUCKET_COUNT
    (readNewEntries hashes fUsable s.nNew.toNat 0 s bytes).andThen fun s bytes =>
    if s.nNew < 0 then .outside
    else
      let s := { s with nIdCount := s.nNew.toNat }
      (readTriedEntries hashes s.nTried.toNat 0 s bytes).andThen fun s bytes =>
      (readBuckets hashes fUsable nUBuckets.toNat 0 s bytes).andThen fun s bytes =>
      match prune ((sortedEntries (· ≤ ·) s.mapInfo).map Sigma.fst) s with
      | none => .aborted
      | some s => .done s bytes

end CAddrMan

end Stonecoin
