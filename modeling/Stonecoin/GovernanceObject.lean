/-
Governance objects (`governance-object.h`, `governance-object.cpp`) and the file of their
votes (`governance-votedb.cpp`).

The members that `GetHash` reads do not change, so an object has its hash as a member; the
data string, the collateral and the local validity are left out.  Of an exception the type
and the penalty are kept.  The index of the vote file gives the vote that an iterator points
to.
-/
import Stonecoin.Caches
import Stonecoin.GovernanceVote

namespace Stonecoin

def GOVERNANCE_OBJECT_WATCHDOG : ℤ := 3
def GOVERNANCE_UPDATE_MIN : ℤ := 60 * 60
def GOVERNANCE_DELETION_DELAY : ℤ := 10 * 60
def GOVERNANCE_ORPHAN_EXPIRATION_TIME : ℤ := 10 * 60
def GOVERNANCE_WATCHDOG_EXPIRATION_TIME : ℤ := 2 * 60 * 60

/-- `governance_exception_type_enum_t`, as far as it is used here. -/
inductive GovernanceExceptionType where
  | none | warning | permanentError | temporaryError
deriving DecidableEq

structure CGovernanceException where
  eType : GovernanceExceptionType
  nNodePenalty : ℕ
deriving DecidableEq

variable {H : Type} [DecidableEq H] (hash : CTxIn → UInt256 → ℤ → ℤ → ℤ → H)

/-! ### The vote file -/

structure CGovernanceObjectVoteFile (H : Type) where
  nMemoryVotes : ℤ
  listVotes : List CGovernanceVote
  mapVoteIndex : AList fun _ : H => CGovernanceVote

namespace CGovernanceObjectVoteFile

def empty : CGovernanceObjectVoteFile H := ⟨0, [], ∅⟩

def addVote (f : CGovernanceObjectVoteFile H) (vote : CGovernanceVote) :
    CGovernanceObjectVoteFile H where
  nMemoryVotes := f.nMemoryVotes + 1
  listVotes := vote :: f.listVotes
  mapVoteIndex := f.mapVoteIndex.insert (vote.getHash hash) vote

def hasVote (f : CGovernanceObjectVoteFile H) (nHash : H) : Bool :=
  (f.mapVoteIndex.lookup nHash).isSome

def removeLoop (vinMasternode : CTxIn) (nMemoryVotes : ℤ)
    (mapVoteIndex : AList fun _ : H => CGovernanceVote) :
    List CGovernanceVote → CGovernanceObjectVoteFile H
  | [] => ⟨nMemoryVotes, [], mapVoteIndex⟩
  | vote :: votes =>
    if vote.vinMasternode = vinMasternode then
      removeLoop vinMasternode (nMemoryVotes - 1) (mapVoteIndex.erase (vote.getHash hash)) votes
    else
      let f := removeLoop vinMasternode nMemoryVotes mapVoteIndex votes
      { f with listVotes := vote :: f.listVotes }

def removeVotesFromMasternode (f : CGovernanceObjectVoteFile H) (vinMasternode : CTxIn) :
    CGovernanceObjectVoteFile H :=
  removeLoop hash vinMasternode f.nMemoryVotes f.mapVoteIndex f.listVotes

def rebuildLoop (nMemoryVotes : ℤ) (mapVoteIndex : AList fun _ : H => CGovernanceVote) :
    List CGovernanceVote → CGovernanceObjectVoteFile H
  | [] => ⟨nMemoryVotes, [], mapVoteIndex⟩
  | vote :: votes =>
    if (mapVoteIndex.lookup (vote.getHash hash)).isNone then
      let f := rebuildLoop (nMemoryVotes + 1) (mapVoteIndex.insert (vote.getHash hash) vote) votes
      { f with listVotes := vote :: f.listVotes }
    else rebuildLoop nMemoryVotes mapVoteIndex votes

/-- The copy constructor, which calls `RebuildIndex`. -/
def copy (other : CGovernanceObjectVoteFile H) : CGovernanceObjectVoteFile H :=
  rebuildLoop hash 0 ∅ other.listVotes

end CGovernanceObjectVoteFile

/-! ### Objects -/

structure vote_instance_t where
  eOutcome : ℤ
  nTime : ℤ
  nCreationTime : ℤ
deriving DecidableEq

def vote_instance_t.default : vote_instance_t := ⟨VOTE_OUTCOME_NONE, 0, 0⟩

abbrev vote_rec_t := AList fun _ : ℤ => vote_instance_t

/-- `operator<` of `vote_time_pair_t` leaves the time out. -/
def voteTimeLt (p1 p2 : CGovernanceVote × ℤ) : Bool := p1.1.lt p2.1

structure CGovernanceObject (H : Type) where
  nHash : UInt256
  nObjectType : ℤ
  nTime : ℤ
  nDeletionTime : ℤ
  fCachedFunding : Bool
  fCachedValid : Bool
  fCachedDelete : Bool
  fCachedEndorsed : Bool
  fDirtyCache : Bool
  fExpired : Bool
  mapCurrentMNVotes : AList fun _ : ℤ => vote_rec_t
  mapOrphanVotes : CacheMultiMap COutPoint (CGovernanceVote × ℤ)
  fileVotes : CGovernanceObjectVoteFile H

namespace CGovernanceObject

/-- An object as it comes from a message: without votes. -/
def received (nHash : UInt256) (nObjectType nTime : ℤ) : CGovernanceObject H where
  nHash := nHash
  nObjectType := nObjectType
  nTime := nTime
  nDeletionTime := 0
  fCachedFunding := false
  fCachedValid := true
  fCachedDelete := false
  fCachedEndorsed := false
  fDirtyCache := true
  fExpired := false
  mapCurrentMNVotes := ∅
  mapOrphanVotes := .of 0
  fileVotes := .empty

def copy (other : CGovernanceObject H) : CGovernanceObject H :=
  { other with fileVotes := other.fileVotes.copy hash }

def getRec (o : CGovernanceObject H) (nMNIndex : ℤ) : vote_rec_t :=
  (o.mapCurrentMNVotes.lookup nMNIndex).getD ∅

def getInstance (o : CGovernanceObject H) (nMNIndex eSignal : ℤ) : Option vote_instance_t :=
  (o.getRec nMNIndex).lookup eSignal

def setRec (o : CGovernanceObject H) (nMNIndex : ℤ) (recVote : vote_rec_t) : CGovernanceObject H :=
  { o with mapCurrentMNVotes := o.mapCurrentMNVotes.insert nMNIndex recVote }

def setInstance (o : CGovernanceObject H) (nMNIndex eSignal : ℤ) (voteInstance : vote_instance_t) :
    CGovernanceObject H :=
  o.setRec nMNIndex ((o.getRec nMNIndex).insert eSignal voteInstance)

/-- What `ProcessVote` returns: its result, the object, the exception if one is set, and
whether the vote goes to the invalid ones. -/
structure VoteResult (H : Type) where
  fOk : Bool
  govobj : CGovernanceObject H
  exception : Option CGovernanceException
  fInvalid : Bool

def processVote (env : GovernanceEnv) (fRateChecksEnabled : Bool) (o : CGovernanceObject H)
    (vote : CGovernanceVote) : VoteResult H :=
  let nMNIndex := env.getMasternodeIndex vote.vinMasternode.prevout
  if nMNIndex < 0 then
    let mapOrphanVotes := (o.mapOrphanVotes.insert voteTimeLt vote.vinMasternode.prevout
      (vote, env.getAdjustedTime + GOVERNANCE_ORPHAN_EXPIRATION_TIME)).2
    ⟨false, { o with mapOrphanVotes := mapOrphanVotes }, some ⟨.warning, 0⟩, false⟩
  else
    let o := o.setRec nMNIndex (o.getRec nMNIndex)
    let eSignal := vote.getSignal
    if eSignal = VOTE_SIGNAL_NONE then ⟨false, o, some ⟨.warning, 0⟩, false⟩
    else if MAX_SUPPORTED_VOTE_SIGNAL < eSignal then
      ⟨false, o, some ⟨.permanentError, 20⟩, false⟩
    else
      let voteInstance := (o.getInstance nMNIndex eSignal).getD .default
      let o := o.setInstance nMNIndex eSignal voteInstance
      -- obsolete votes
      if vote.nTime < voteInstance.nCreationTime then ⟨false, o, some ⟨.none, 0⟩, false⟩
      else if fRateChecksEnabled && env.getTime - voteInstance.nTime < GOVERNANCE_UPDATE_MIN then
        ⟨false, o, some ⟨.temporaryError, 0⟩, false⟩
      else if !env.isValid vote then ⟨false, o, some ⟨.permanentError, 20⟩, true⟩
      -- `mnodeman.AddGovernanceVote`
      else if !env.has vote.vinMasternode then ⟨false, o, some ⟨.permanentError, 0⟩, false⟩
      else
        let o := o.setInstance nMNIndex eSignal ⟨vote.getOutcome, voteInstance.nTime, vote.nTime⟩
        let fileVotes :=
          if o.fileVotes.hasVote (vote.getHash hash) then o.fileVotes
          else o.fileVotes.addVote hash vote
        ⟨true, { o with fileVotes := fileVotes, fDirtyCache := true }, none, false⟩

def countMatchingVotes (o : CGovernanceObject H) (eVoteSignalIn eVoteOutcomeIn : ℤ) : ℤ :=
  o.mapCurrentMNVotes.entries.countP fun it =>
    match it.2.lookup eVoteSignalIn with
    | none => false
    | some voteInstance => voteInstance.eOutcome = eVoteOutcomeIn

def getYesCount (o : CGovernanceObject H) (eVoteSignalIn : ℤ) : ℤ :=
  o.countMatchingVotes eVoteSignalIn VOTE_OUTCOME_YES

def getNoCount (o : CGovernanceObject H) (eVoteSignalIn : ℤ) : ℤ :=
  o.countMatchingVotes eVoteSignalIn VOTE_OUTCOME_NO

def getAbstainCount (o : CGovernanceObject H) (eVoteSignalIn : ℤ) : ℤ :=
  o.countMatchingVotes eVoteSignalIn VOTE_OUTCOME_ABSTAIN

def getAbsoluteYesCount (o : CGovernanceObject H) (eVoteSignalIn : ℤ) : ℤ :=
  o.getYesCount eVoteSignalIn - o.getNoCount eVoteSignalIn

def getAbsoluteNoCount (o : CGovernanceObject H) (eVoteSignalIn : ℤ) : ℤ :=
  o.getNoCount eVoteSignalIn - o.getYesCount eVoteSignalIn

def updateSentinelVariables (env : GovernanceEnv) (o : CGovernanceObject H) : CGovernanceObject H :=
  if env.countEnabled = 0 then o
  else
    let nAbsVoteReq := max env.nGovernanceMinQuorum (env.countEnabled / 10 : ℕ)
    let nAbsDeleteReq := max env.nGovernanceMinQuorum (2 * env.countEnabled / 3 : ℕ)
    let fDelete : Bool :=
      nAbsDeleteReq ≤ o.getAbsoluteYesCount VOTE_SIGNAL_DELETE ∧ o.fCachedDelete = false
    { o with
      fDirtyCache := false
      fCachedFunding := nAbsVoteReq ≤ o.getAbsoluteYesCount VOTE_SIGNAL_FUNDING
      fCachedDelete := o.fCachedDelete || fDelete
      nDeletionTime := if fDelete ∧ o.nDeletionTime = 0 then env.getAdjustedTime else o.nDeletionTime
      fCachedEndorsed := nAbsVoteReq ≤ o.getAbsoluteYesCount VOTE_SIGNAL_ENDORSED
      fCachedValid := !decide (nAbsVoteReq ≤ o.getAbsoluteNoCount VOTE_SIGNAL_VALID) }

/-- `RebuildVoteMap`; `renumber` gives the new index of an old one, if its masternode is there. -/
def rebuildVoteMap (renumber : ℤ → Option ℤ) (o : CGovernanceObject H) : CGovernanceObject H :=
  { o with
    mapCurrentMNVotes := o.mapCurrentMNVotes.entries.foldl (fun mapMNVotesNew it =>
      match renumber it.1 with
      | none => mapMNVotesNew
      | some nNewIndex =>
        if 0 ≤ nNewIndex then mapMNVotesNew.insert nNewIndex it.2 else mapMNVotesNew) ∅ }

def clearMasternode (env : GovernanceEnv) (o : CGovernanceObject H) (nMNIndex : ℤ) :
    CGovernanceObject H :=
  match env.getMasternodeVin nMNIndex with
  | none => { o with mapCurrentMNVotes := o.mapCurrentMNVotes.erase nMNIndex }
  | some vinMasternode =>
    if env.has vinMasternode then o
    else
      { o with
        fileVotes := o.fileVotes.removeVotesFromMasternode hash vinMasternode
        mapCurrentMNVotes := o.mapCurrentMNVotes.erase nMNIndex }

def clearMasternodeVotes (env : GovernanceEnv) (o : CGovernanceObject H) : CGovernanceObject H :=
  o.mapCurrentMNVotes.keys.foldl (clearMasternode hash env) o

end CGovernanceObject

end Stonecoin
