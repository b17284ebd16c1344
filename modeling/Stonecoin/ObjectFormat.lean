/-
Governance objects with all their members, and their form in a stream (`SerializationOp` in
`governance-object.h`, `governance-vote.h`, `governance-votedb.h` and `primitives/transaction.h`).

Numbers of a fixed width are always read back.  What can fail are sizes: `LIMITED_STRING`
refuses a string above its limit, and every vector, list and map is refused above `MAX_SIZE`.
-/
import Stonecoin.OrderedMaps
import Stonecoin.TxFormat
import Stonecoin.VoteFiles
import Mathlib.Tactic.NormNum

namespace Stonecoin

open Readers OrderedMaps

/-! ### Ordered maps -/

section Maps

variable {κ β : Type} [DecidableEq κ] (le : κ → κ → Prop) [DecidableRel le]

/-- A map: its size, then its entries in the order of their keys. -/
def writeMap (write : (Σ _ : κ, β) → List UInt8) (m : AList fun _ : κ => β) : List UInt8 :=
  writeVector write (sortedEntries le m)

def readMap (read : Reader UInt8 (Σ _ : κ, β)) : Reader UInt8 (AList fun _ : κ => β) :=
  ofEntries <$> readVector read

theorem readsIf_map {read : Reader UInt8 (Σ _ : κ, β)} {write : (Σ _ : κ, β) → List UInt8}
    {g : β → β} {p : (Σ _ : κ, β) → Prop} {m : AList fun _ : κ => β}
    (hlen : m.entries.length < 256 ^ 8)
    (h : ∀ q ∈ m.entries, ReadsIf (p q) read (write q) ⟨q.1, g q.2⟩) :
    ReadsIf (m.entries.length ≤ MAX_SIZE ∧ ∀ q ∈ m.entries, p q) (readMap read)
      (writeMap le write m) (rebuilt le g m) := by
  have hperm := perm_sortedEntries le m
  have hitems := ReadsIf.replicate fun q hq => h q (hperm.mem_iff.mp hq)
  rw [← hperm.length_eq] at hlen ⊢
  refine (ReadsIf.map ofEntries ((readsIf_compactSize hlen).bind hitems)).congr ?_
  exact and_congr_right' (forall_congr' fun q => imp_congr_left hperm.mem_iff)

end Maps

/-! ### Votes -/

namespace CGovernanceVote

def write (vote : CGovernanceVote) : List UInt8 :=
  vote.vinMasternode.write ++ (writeHash vote.nParentHash ++ (writeInt 4 vote.nVoteOutcome ++
    (writeInt 4 vote.nVoteSignal ++ (writeInt 8 vote.nTime ++ writeBytes vote.vchSig))))

def read : Reader UInt8 CGovernanceVote := do
  let vinMasternode ← CTxIn.read
  let nParentHash ← readHash
  let nVoteOutcome ← readInt 4
  let nVoteSignal ← readInt 4
  let nTime ← readInt 8
  let vchSig ← readBytes
  pure ⟨nVoteSignal, vinMasternode, nParentHash, nVoteOutcome, nTime, vchSig⟩

structure Typed (vote : CGovernanceVote) : Prop where
  vinMasternode : vote.vinMasternode.Typed
  nVoteOutcome : IsInt 4 vote.nVoteOutcome
  nVoteSignal : IsInt 4 vote.nVoteSignal
  nTime : IsInt 8 vote.nTime
  vchSig : vote.vchSig.length < 256 ^ 8

def Fits (vote : CGovernanceVote) : Prop :=
  vote.vinMasternode.Fits ∧ vote.vchSig.length ≤ MAX_SIZE

theorem readsIf {vote : CGovernanceVote} (h : vote.Typed) :
    ReadsIf vote.Fits read vote.write vote := by
  refine (CTxIn.readsIf h.vinMasternode).bind ?_
  refine .after (reads_hash _) ?_
  refine .after (reads_int h.nVoteOutcome) ?_
  refine .after (reads_int h.nVoteSignal) ?_
  refine .after (reads_int h.nTime) ?_
  exact (readsIf_bytes h.vchSig).bind_pure _

end CGovernanceVote

/-! ### Tallies -/

namespace vote_instance_t

def write (voteInstance : vote_instance_t) : List UInt8 :=
  writeInt 4 voteInstance.eOutcome ++
    (writeInt 8 voteInstance.nTime ++ writeInt 8 voteInstance.nCreationTime)

/-- The outcome is read as an `int`, and the enumeration has no negative values. -/
def read : Reader UInt8 vote_instance_t := do
  let nOutcome ← readInt 4
  let nTime ← readInt 8
  let nCreationTime ← readInt 8
  pure ⟨nOutcome % 4294967296, nTime, nCreationTime⟩

structure Typed (voteInstance : vote_instance_t) : Prop where
  eOutcome : 0 ≤ voteInstance.eOutcome ∧ voteInstance.eOutcome < 4294967296
  nTime : IsInt 8 voteInstance.nTime
  nCreationTime : IsInt 8 voteInstance.nCreationTime

theorem reads {voteInstance : vote_instance_t} (h : voteInstance.Typed) :
    Reads read voteInstance.write voteInstance := by
  have hback : ∀ n : ℤ, 0 ≤ n ∧ n < 4294967296 →
      (if 2 * (n % 256 ^ 4) < 256 ^ 4 then n % 256 ^ 4 else n % 256 ^ 4 - 256 ^ 4) %
        4294967296 = n := by
    intro n hn
    norm_num
    split <;> omega
  have hread := (reads_int_mod 4 voteInstance.eOutcome).bind
    (f := fun nOutcome => (do
      let nTime ← readInt 8
      let nCreationTime ← readInt 8
      pure ⟨nOutcome % 4294967296, nTime, nCreationTime⟩ : Reader UInt8 vote_instance_t))
    ((reads_int h.nTime).bind ((reads_int h.nCreationTime).bind_pure _))
  rw [hback _ h.eOutcome] at hread
  exact hread

end vote_instance_t

namespace vote_rec_t

def write (recVote : vote_rec_t) : List UInt8 :=
  writeMap (· ≤ ·) (fun p => writeInt 4 p.1 ++ p.2.write) recVote

def read : Reader UInt8 vote_rec_t := readMap do
  let eSignal ← readInt 4
  let voteInstance ← vote_instance_t.read
  pure ⟨eSignal, voteInstance⟩

structure Typed (recVote : vote_rec_t) : Prop where
  length : recVote.entries.length < 256 ^ 8
  entries : ∀ p ∈ recVote.entries, IsInt 4 p.1 ∧ p.2.Typed

def Fits (recVote : vote_rec_t) : Prop := recVote.entries.length ≤ MAX_SIZE

/-- The record that is read. -/
def loaded (recVote : vote_rec_t) : vote_rec_t := rebuilt (· ≤ ·) id recVote

theorem readsIf {recVote : vote_rec_t} (h : Typed recVote) :
    ReadsIf (Fits recVote) read (write recVote) (loaded recVote) := by
  have hread : ReadsIf (recVote.entries.length ≤ MAX_SIZE ∧ ∀ p ∈ recVote.entries, True) read
      (write recVote) (loaded recVote) :=
    readsIf_map (· ≤ ·) h.length fun p hp => .after (reads_int (h.entries p hp).1)
      ((vote_instance_t.reads (h.entries p hp).2).bind_pure fun voteInstance =>
        (⟨p.1, voteInstance⟩ : Σ _ : ℤ, vote_instance_t)).readsIf
  exact hread.congr (by simp [Fits])

theorem lookup_loaded (recVote : vote_rec_t) (eSignal : ℤ) :
    (loaded recVote).lookup eSignal = recVote.lookup eSignal := by
  rw [loaded, lookup_rebuilt, Option.map_id, id]

end vote_rec_t

namespace CGovernanceObject

abbrev vote_m_t := AList fun _ : ℤ => vote_rec_t

namespace vote_m_t

def write (mapVotes : vote_m_t) : List UInt8 :=
  writeMap (· ≤ ·) (fun p => writeInt 4 p.1 ++ vote_rec_t.write p.2) mapVotes

def read : Reader UInt8 vote_m_t := readMap do
  let nMNIndex ← readInt 4
  let recVote ← vote_rec_t.read
  pure ⟨nMNIndex, recVote⟩

structure Typed (mapVotes : vote_m_t) : Prop where
  length : mapVotes.entries.length < 256 ^ 8
  entries : ∀ p ∈ mapVotes.entries, IsInt 4 p.1 ∧ vote_rec_t.Typed p.2

def Fits (mapVotes : vote_m_t) : Prop :=
  mapVotes.entries.length ≤ MAX_SIZE ∧ ∀ p ∈ mapVotes.entries, vote_rec_t.Fits p.2

def loaded (mapVotes : vote_m_t) : vote_m_t := rebuilt (· ≤ ·) vote_rec_t.loaded mapVotes

theorem readsIf {mapVotes : vote_m_t} (h : Typed mapVotes) :
    ReadsIf (Fits mapVotes) read (write mapVotes) (loaded mapVotes) :=
  readsIf_map (· ≤ ·) h.length fun p hp => .after (reads_int (h.entries p hp).1)
    ((vote_rec_t.readsIf (h.entries p hp).2).bind_pure fun recVote =>
      (⟨p.1, recVote⟩ : Σ _ : ℤ, vote_rec_t))

theorem countP_loaded (mapVotes : vote_m_t) (eSignal : ℤ) (p : Option vote_instance_t → Bool) :
    (loaded mapVotes).entries.countP (fun it => p (it.2.lookup eSignal)) =
      mapVotes.entries.countP fun it => p (it.2.lookup eSignal) := by
  rw [loaded, countP_rebuilt]
  simp only [vote_rec_t.lookup_loaded]

end vote_m_t

end CGovernanceObject

/-! ### Objects -/

variable {H : Type} [DecidableEq H] (hash : CTxIn → UInt256 → ℤ → ℤ → ℤ → H)

/-- A vote file whose list, index and count agree. -/
abbrev VoteFile := { f : CGovernanceObjectVoteFile H // f.Consistent hash }

namespace VoteFile

variable {hash}

def copy (f : VoteFile hash) : VoteFile hash :=
  ⟨f.1.copy hash, CGovernanceObjectVoteFile.consistent_copy f.1⟩

theorem listVotes_copy (f : VoteFile hash) : f.copy.1.listVotes = f.1.listVotes :=
  f.2.listVotes_copy

def write (f : VoteFile hash) : List UInt8 :=
  writeInt 4 f.1.nMemoryVotes ++ writeVector CGovernanceVote.write f.1.listVotes

/-- `RebuildIndex` comes after the members are read. -/
def read : Reader UInt8 (VoteFile hash) := do
  let nMemoryVotes ← readInt 4
  let listVotes ← readVector CGovernanceVote.read
  let f : CGovernanceObjectVoteFile H := ⟨nMemoryVotes, listVotes, ∅⟩
  pure ⟨f.copy hash, CGovernanceObjectVoteFile.consistent_copy f⟩

structure Typed (f : VoteFile hash) : Prop where
  length : f.1.listVotes.length < 256 ^ 8
  listVotes : ∀ vote ∈ f.1.listVotes, vote.Typed

def Fits (f : VoteFile hash) : Prop :=
  f.1.listVotes.length ≤ MAX_SIZE ∧ ∀ vote ∈ f.1.listVotes, vote.Fits

theorem readsIf {f : VoteFile hash} (h : f.Typed) : ReadsIf f.Fits read f.write f.copy := by
  refine .after (reads_int_mod 4 f.1.nMemoryVotes) ?_
  exact (readsIf_vector h.length fun vote hvote =>
    CGovernanceVote.readsIf (h.listVotes vote hvote)).bind_pure _

end VoteFile

def MAX_GOVERNANCE_OBJECT_DATA_SIZE : ℕ := 16 * 1024

def readLimited (limit : ℕ) : Reader UInt8 (List UInt8) := do
  let size ← readCompactSize
  if limit < size then failure else (List.replicate size ()).mapM fun _ => next

theorem readsIf_limited {limit : ℕ} {v : List UInt8} (hlimit : limit ≤ MAX_SIZE)
    (hlen : v.length < 256 ^ 8) :
    ReadsIf (v.length ≤ limit) (readLimited limit) (writeBytes v) v := by
  have hrest : ReadsIf (v.length ≤ limit)
      (if limit < v.length then failure else (List.replicate v.length ()).mapM fun _ => next)
      (v.flatMap fun b => [b]) v := by
    constructor
    · intro hok
      rw [if_neg (Nat.not_lt.mpr hok)]
      exact reads_replicate fun b _ => Reads.next b
    · intro hnot rest
      rw [if_pos (Nat.not_le.mp hnot)]
      rfl
  exact ((readsIf_compactSize hlen).bind hrest).congr
    (and_iff_right_of_imp fun hle => hle.trans hlimit)

namespace CGovernanceObject

structure Members where
  nObjectType : ℤ
  nHashParent : UInt256
  nRevision : ℤ
  nTime : ℤ
  nDeletionTime : ℤ
  nCollateralHash : UInt256
  strData : List UInt8
  vinMasternode : CTxIn
  vchSig : List UInt8
  fCachedLocalValidity : Bool
  strLocalValidityError : String
  fCachedFunding : Bool
  fCachedValid : Bool
  fCachedDelete : Bool
  fCachedEndorsed : Bool
  fDirtyCache : Bool
  fExpired : Bool
  fUnparsable : Bool
  mapCurrentMNVotes : vote_m_t
  mapOrphanVotes : CacheMultiMap COutPoint (CGovernanceVote × ℤ)
  fileVotes : VoteFile hash

namespace Members

variable {hash}

/-- `SerializationOp`, for writing; `fDisk` is `nType & SER_DISK`. -/
def serialize (fDisk : Bool) (x : Members hash) : List UInt8 :=
  writeHash x.nHashParent ++ (writeInt 4 x.nRevision ++ (writeInt 8 x.nTime ++
    (writeHash x.nCollateralHash ++ (writeBytes x.strData ++ (writeInt 4 x.nObjectType ++
      (x.vinMasternode.write ++ (writeBytes x.vchSig ++
        if fDisk then
          writeInt 8 x.nDeletionTime ++ (writeBool x.fExpired ++
            (x.mapCurrentMNVotes.write ++ x.fileVotes.write))
        else [])))))))

/-- `SerializationOp`, for reading into an object. -/
def unserialize (fDisk : Bool) (o : Members hash) : Reader UInt8 (Members hash) := do
  let nHashParent ← readHash
  let nRevision ← readInt 4
  let nTime ← readInt 8
  let nCollateralHash ← readHash
  let strData ← readLimited MAX_GOVERNANCE_OBJECT_DATA_SIZE
  let nObjectType ← readInt 4
  let vinMasternode ← CTxIn.read
  let vchSig ← readBytes
  let o := { o with
    nHashParent := nHashParent, nRevision := nRevision, nTime := nTime
    nCollateralHash := nCollateralHash, strData := strData, nObjectType := nObjectType
    vinMasternode := vinMasternode, vchSig := vchSig }
  if fDisk then do
    let nDeletionTime ← readInt 8
    let fExpired ← readBool
    let mapCurrentMNVotes ← vote_m_t.read
    let fileVotes ← VoteFile.read
    pure { o with
      nDeletionTime := nDeletionTime, fExpired := fExpired
      mapCurrentMNVotes := mapCurrentMNVotes, fileVotes := fileVotes }
  else pure o

structure Typed (x : Members hash) : Prop where
  nObjectType : IsInt 4 x.nObjectType
  nRevision : IsInt 4 x.nRevision
  nTime : IsInt 8 x.nTime
  nDeletionTime : IsInt 8 x.nDeletionTime
  strData : x.strData.length < 256 ^ 8
  vinMasternode : x.vinMasternode.Typed
  vchSig : x.vchSig.length < 256 ^ 8
  mapCurrentMNVotes : x.mapCurrentMNVotes.Typed
  fileVotes : x.fileVotes.Typed

/-- No size is above its limit. -/
structure Fits (x : Members hash) : Prop where
  strData : x.strData.length ≤ MAX_GOVERNANCE_OBJECT_DATA_SIZE
  vinMasternode : x.vinMasternode.Fits
  vchSig : x.vchSig.length ≤ MAX_SIZE
  mapCurrentMNVotes : x.mapCurrentMNVotes.Fits
  fileVotes : x.fileVotes.Fits

/-- The object `o` after `x` has been read into it. -/
def loaded (o x : Members hash) : Members hash :=
  { o with
    nHashParent := x.nHashParent, nRevision := x.nRevision, nTime := x.nTime
    nCollateralHash := x.nCollateralHash, strData := x.strData, nObjectType := x.nObjectType
    vinMasternode := x.vinMasternode, vchSig := x.vchSig, nDeletionTime := x.nDeletionTime
    fExpired := x.fExpired, mapCurrentMNVotes := x.mapCurrentMNVotes.loaded
    fileVotes := x.fileVotes.copy }

theorem readsIf {x : Members hash} (h : x.Typed) (o : Members hash) :
    ReadsIf x.Fits (unserialize true o) (x.serialize true) (o.loaded x) := by
  have hlimit : MAX_GOVERNANCE_OBJECT_DATA_SIZE ≤ MAX_SIZE := by decide
  have hfits : x.strData.length ≤ MAX_GOVERNANCE_OBJECT_DATA_SIZE ∧ x.vinMasternode.Fits ∧
      x.vchSig.length ≤ MAX_SIZE ∧ x.mapCurrentMNVotes.Fits ∧ x.fileVotes.Fits ↔ x.Fits :=
    ⟨fun ⟨h1, h2, h3, h4, h5⟩ => ⟨h1, h2, h3, h4, h5⟩,
      fun ⟨h1, h2, h3, h4, h5⟩ => ⟨h1, h2, h3, h4, h5⟩⟩
  refine ReadsIf.congr ?_ hfits
  -- in the order in which the members are written
  refine .after (reads_hash _) ?_
  refine .after (reads_int h.nRevision) ?_
  refine .after (reads_int h.nTime) ?_
  refine .after (reads_hash _) ?_
  refine (readsIf_limited hlimit h.strData).bind ?_
  refine .after (reads_int h.nObjectType) ?_
  refine (CTxIn.readsIf h.vinMasternode).bind ?_
  refine (readsIf_bytes h.vchSig).bind ?_
  refine .after (reads_int h.nDeletionTime) ?_
  refine .after (reads_bool _) ?_
  refine (vote_m_t.readsIf h.mapCurrentMNVotes).bind ?_
  exact (VoteFile.readsIf h.fileVotes).bind_pure _

end Members

end CGovernanceObject

end Stonecoin
