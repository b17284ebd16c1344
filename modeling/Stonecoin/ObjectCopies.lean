/-
The three ways to copy a governance object: assignment, the copy constructor, and the disk
(`CGovernanceObject::swap`, `operator=`, the copy constructor and `SerializationOp`).

Each has its own list of members.  `swap`, and with it the assignment, leaves eight members
out, among them those that the hash, the tallies and the votes depend on: the masternode, the
signature, `mapCurrentMNVotes` and `fileVotes`.

  * `copies_preserve_iff`: when all three ways preserve the object.
-/
import Stonecoin.ObjectFormat

namespace Stonecoin

open Readers

variable {H : Type} [DecidableEq H] {hash : CTxIn → UInt256 → ℤ → ℤ → ℤ → H}

namespace CGovernanceObject

namespace Members

variable (sha : List UInt8 → UInt256) {x y z : Members hash}

def hashedBytes (x : Members hash) : List UInt8 :=
  writeHash x.nHashParent ++ (writeInt 4 x.nRevision ++ (writeInt 8 x.nTime ++
    (writeBytes x.strData ++ (x.vinMasternode.write ++ writeBytes x.vchSig))))

def getHash (x : Members hash) : UInt256 := sha x.hashedBytes

/-- The members that the rest of the governance code works on. -/
def toObject (x : Members hash) : CGovernanceObject H where
  nHash := x.getHash sha
  nObjectType := x.nObjectType
  nTime := x.nTime
  nDeletionTime := x.nDeletionTime
  fCachedFunding := x.fCachedFunding
  fCachedValid := x.fCachedValid
  fCachedDelete := x.fCachedDelete
  fCachedEndorsed := x.fCachedEndorsed
  fDirtyCache := x.fDirtyCache
  fExpired := x.fExpired
  mapCurrentMNVotes := x.mapCurrentMNVotes
  mapOrphanVotes := x.mapOrphanVotes
  fileVotes := x.fileVotes.1

/-! ### The three copies -/

/-- `CGovernanceObject()`. -/
def default : Members hash where
  nObjectType := 0
  nHashParent := 0
  nRevision := 0
  nTime := 0
  nDeletionTime := 0
  nCollateralHash := 0
  strData := []
  vinMasternode := ⟨⟨0, 4294967295⟩, [], 4294967295⟩
  vchSig := []
  fCachedLocalValidity := false
  strLocalValidityError := ""
  fCachedFunding := false
  fCachedValid := true
  fCachedDelete := false
  fCachedEndorsed := false
  fDirtyCache := true
  fExpired := false
  fUnparsable := false
  mapCurrentMNVotes := ∅
  mapOrphanVotes := .of 0
  fileVotes := ⟨.empty, CGovernanceObjectVoteFile.consistent_empty⟩

def copy (other : Members hash) : Members hash where
  nObjectType := other.nObjectType
  nHashParent := other.nHashParent
  nRevision := other.nRevision
  nTime := other.nTime
  nDeletionTime := other.nDeletionTime
  nCollateralHash := other.nCollateralHash
  strData := other.strData
  vinMasternode := other.vinMasternode
  vchSig := other.vchSig
  fCachedLocalValidity := other.fCachedLocalValidity
  strLocalValidityError := other.strLocalValidityError
  fCachedFunding := other.fCachedFunding
  fCachedValid := other.fCachedValid
  fCachedDelete := other.fCachedDelete
  fCachedEndorsed := other.fCachedEndorsed
  fDirtyCache := other.fDirtyCache
  fExpired := other.fExpired
  fUnparsable := other.fUnparsable
  mapCurrentMNVotes := other.mapCurrentMNVotes
  mapOrphanVotes := other.mapOrphanVotes
  fileVotes := other.fileVotes.copy

/-- What `swap` gives the one object of the other. -/
def swapped (first second : Members hash) : Members hash :=
  { first with
    nHashParent := second.nHashParent
    nRevision := second.nRevision
    nTime := second.nTime
    nDeletionTime := second.nDeletionTime
    nCollateralHash := second.nCollateralHash
    strData := second.strData
    nObjectType := second.nObjectType
    fCachedFunding := second.fCachedFunding
    fCachedValid := second.fCachedValid
    fCachedDelete := second.fCachedDelete
    fCachedEndorsed := second.fCachedEndorsed
    fDirtyCache := second.fDirtyCache
    fExpired := second.fExpired }

def swap (first second : Members hash) : Members hash × Members hash :=
  (swapped first second, swapped second first)

/-- `operator=`, which takes its argument by value. -/
def assign (y x : Members hash) : Members hash := (swap y x.copy).1

/-! ### What is preserved -/

structure Preserves (x z : Members hash) : Prop where
  getHash : z.getHash sha = x.getHash sha
  countMatchingVotes : ∀ eVoteSignal eVoteOutcome,
    (z.toObject sha).countMatchingVotes eVoteSignal eVoteOutcome =
      (x.toObject sha).countMatchingVotes eVoteSignal eVoteOutcome
  fileVotes : ∀ vote, vote ∈ z.fileVotes.1.listVotes ↔ vote ∈ x.fileVotes.1.listVotes

/-- Written to disk and read into a new object, `x` is preserved. -/
def Reloads (x : Members hash) : Prop :=
  ∃ z, (∀ rest, unserialize true default (x.serialize true ++ rest) = some (z, rest)) ∧
    Preserves sha x z ∧ z.nDeletionTime = x.nDeletionTime ∧ z.fExpired = x.fExpired

/-- The bytes that `GetHash` of `x` hashes, with the masternode and the signature of `y`. -/
def bytesSignedAs (x y : Members hash) : List UInt8 :=
  { x with vinMasternode := y.vinMasternode, vchSig := y.vchSig }.hashedBytes

/-- The members that `swap` leaves out agree already, as far as they are looked at: the
masternode and the signature are the same, or the hash collides; so are the tallies and the
votes. -/
structure AgreesOnRest (x y : Members hash) : Prop where
  signer : (y.vinMasternode = x.vinMasternode ∧ y.vchSig = x.vchSig) ∨
    (bytesSignedAs x y ≠ x.hashedBytes ∧ sha (bytesSignedAs x y) = sha x.hashedBytes)
  countMatchingVotes : ∀ eVoteSignal eVoteOutcome,
    (y.toObject sha).countMatchingVotes eVoteSignal eVoteOutcome =
      (x.toObject sha).countMatchingVotes eVoteSignal eVoteOutcome
  fileVotes : ∀ vote, vote ∈ y.fileVotes.1.listVotes ↔ vote ∈ x.fileVotes.1.listVotes

def matchesOutcome (eVoteOutcome : ℤ) (voteInstance : Option vote_instance_t) : Bool :=
  voteInstance.any fun voteInstance => voteInstance.eOutcome = eVoteOutcome

theorem countMatchingVotes_toObject (x : Members hash) (eVoteSignal eVoteOutcome : ℤ) :
    (x.toObject sha).countMatchingVotes eVoteSignal eVoteOutcome =
      x.mapCurrentMNVotes.entries.countP fun it =>
        matchesOutcome eVoteOutcome (it.2.lookup eVoteSignal) := by
  refine congrArg Nat.cast (List.countP_congr fun it _ => ?_)
  dsimp only [matchesOutcome]
  cases it.2.lookup eVoteSignal with
  | none => exact Iff.rfl
  | some voteInstance => exact Iff.rfl

theorem preserves_copy (x : Members hash) : Preserves sha x x.copy where
  getHash := rfl
  countMatchingVotes _ _ := rfl
  fileVotes vote := by
    show vote ∈ x.fileVotes.copy.1.listVotes ↔ _
    rw [VoteFile.listVotes_copy]

theorem bytesSignedAs_eq_iff (hx : x.Typed) (hy : y.Typed) (hfits : x.Fits) :
    bytesSignedAs x y = x.hashedBytes ↔
      y.vinMasternode = x.vinMasternode ∧ y.vchSig = x.vchSig := by
  have hread : ∀ {z : Members hash}, z.Typed →
      ReadsIf (z.vinMasternode.Fits ∧ z.vchSig.length ≤ MAX_SIZE)
        (CTxIn.read >>= fun vin => readBytes >>= fun vchSig => pure (vin, vchSig))
        (z.vinMasternode.write ++ writeBytes z.vchSig) (z.vinMasternode, z.vchSig) :=
    fun hz => (CTxIn.readsIf hz.vinMasternode).bind ((readsIf_bytes hz.vchSig).bind_pure _)
  constructor
  · intro he
    have hsuffix : y.vinMasternode.write ++ writeBytes y.vchSig =
        x.vinMasternode.write ++ writeBytes x.vchSig := by
      simpa [bytesSignedAs, hashedBytes] using he
    have hreadx := (hread hx).reads ⟨hfits.vinMasternode, hfits.vchSig⟩ []
    rw [← hsuffix] at hreadx
    by_cases hok : y.vinMasternode.Fits ∧ y.vchSig.length ≤ MAX_SIZE
    · rw [(hread hy).reads hok []] at hreadx
      simpa using hreadx
    · rw [(hread hy).fails hok []] at hreadx
      exact absurd hreadx (by simp)
  · rintro ⟨hvin, hsig⟩
    simp only [bytesSignedAs, hashedBytes, hvin, hsig]

theorem preserves_assign_iff (hx : x.Typed) (hy : y.Typed) (hfits : x.Fits) :
    Preserves sha x (y.assign x) ↔ AgreesOnRest sha x y := by
  have hsigner := bytesSignedAs_eq_iff hx hy hfits
  constructor
  · intro h
    refine ⟨?_, h.countMatchingVotes, h.fileVotes⟩
    rw [← hsigner]
    by_cases he : bytesSignedAs x y = x.hashedBytes
    · exact Or.inl he
    · exact Or.inr ⟨he, h.getHash⟩
  · intro h
    refine ⟨?_, h.countMatchingVotes, h.fileVotes⟩
    show sha (bytesSignedAs x y) = sha x.hashedBytes
    rcases h.signer with hsame | hcollision
    · rw [hsigner.mpr hsame]
    · exact hcollision.2

theorem preserves_loaded (o x : Members hash) : Preserves sha x (o.loaded x) where
  getHash := rfl
  countMatchingVotes eVoteSignal eVoteOutcome := by
    have hcount := vote_m_t.countP_loaded x.mapCurrentMNVotes eVoteSignal
      (matchesOutcome eVoteOutcome)
    simp only [countMatchingVotes_toObject]
    exact congrArg Nat.cast hcount
  fileVotes vote := by
    show vote ∈ x.fileVotes.copy.1.listVotes ↔ _
    rw [VoteFile.listVotes_copy]

theorem reloads_iff (hx : x.Typed) : Reloads sha x ↔ x.Fits := by
  have hread := readsIf hx default
  constructor
  · rintro ⟨z, hz, -⟩
    by_contra hnot
    have hnone := hread.fails hnot []
    rw [hz []] at hnone
    exact absurd hnone (by simp)
  · intro hfits
    exact ⟨_, hread.reads hfits, preserves_loaded sha default x, rfl, rfl⟩

/-- **When copying preserves an object.** -/
theorem copies_preserve_iff (hx : x.Typed) (hy : y.Typed) :
    (Preserves sha x (y.assign x) ∧ Preserves sha x x.copy ∧ Reloads sha x) ↔
      AgreesOnRest sha x y ∧ x.Fits := by
  rw [reloads_iff sha hx, and_iff_right (preserves_copy sha x)]
  exact and_congr_left fun hfits => preserves_assign_iff sha hx hy hfits

/-! ### A trigger with one vote -/

/-- A hash for examples: the number that the bytes are, shortened. -/
def shortHash (bytes : List UInt8) : UInt256 := BitVec.ofNat 256 (readLE bytes % 1000003)

theorem consistent_oneVote : (CGovernanceObjectVoteFile.empty.addVote voteTuple
    (fundingVote 0 VOTE_OUTCOME_YES)).Consistent voteTuple :=
  CGovernanceObjectVoteFile.consistent_empty.addVote rfl

def signedObject : Members voteTuple :=
  { (default : Members voteTuple) with
    nObjectType := 2
    nTime := 1480000000
    strData := [34, 34]
    vinMasternode := ⟨⟨1, 0⟩, [], 4294967295⟩
    vchSig := [7, 7]
    mapCurrentMNVotes := (∅ : vote_m_t).insert 0
      ((∅ : vote_rec_t).insert VOTE_SIGNAL_FUNDING ⟨VOTE_OUTCOME_YES, 1500000000, 1490000000⟩)
    fileVotes := ⟨_, consistent_oneVote⟩ }

theorem typed_signedObject : signedObject.Typed := by
  refine ⟨by decide, by decide, by decide, by decide, by decide, ⟨by decide, by decide, by decide⟩,
    by decide, ⟨by decide, ?_⟩, ⟨by decide, ?_⟩⟩
  · intro p hp
    obtain rfl := List.mem_singleton.mp hp
    refine ⟨by decide, by decide, fun q hq => ?_⟩
    obtain rfl := List.mem_singleton.mp hq
    exact ⟨by decide, by decide, by decide, by decide⟩
  · intro vote hvote
    obtain rfl := List.mem_singleton.mp hvote
    exact ⟨⟨by decide, by decide, by decide⟩, by decide, by decide, by decide, by decide⟩

theorem fits_signedObject : signedObject.Fits := by
  refine ⟨by decide, Nat.zero_le _, by decide, ⟨by decide, ?_⟩, ⟨by decide, ?_⟩⟩
  · intro p hp
    obtain rfl := List.mem_singleton.mp hp
    show (1 : ℕ) ≤ MAX_SIZE
    decide
  · intro vote hvote
    obtain rfl := List.mem_singleton.mp hvote
    exact ⟨Nat.zero_le _, by decide⟩

theorem copies_preserve_iff_self :
    Preserves shortHash signedObject (signedObject.assign signedObject) ∧
      Preserves shortHash signedObject signedObject.copy ∧ Reloads shortHash signedObject :=
  (copies_preserve_iff shortHash typed_signedObject typed_signedObject).mpr
    ⟨⟨Or.inl ⟨rfl, rfl⟩, fun _ _ => rfl, fun _ => Iff.rfl⟩, fits_signedObject⟩

/-- **Assigned to a new object, it loses its votes.** -/
theorem assign_loses_votes :
    ¬ (Preserves shortHash signedObject (default.assign signedObject) ∧
      Preserves shortHash signedObject signedObject.copy ∧ Reloads shortHash signedObject) := by
  rintro ⟨h, -⟩
  have hcount := h.countMatchingVotes VOTE_SIGNAL_FUNDING VOTE_OUTCOME_YES
  revert hcount
  decide

end Members

end CGovernanceObject

end Stonecoin
