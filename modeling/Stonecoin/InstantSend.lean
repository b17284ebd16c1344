/-
`CInstantSend` (`instantx.h`, `instantx.cpp`): requests and votes for transaction locks, the
candidates, the locked outpoints, and their expiry.

`ProcessTxLockVote` runs `ProcessTxLockRequest` when enough votes have come before the
candidate, and that replays the waiting votes through `ProcessTxLockVote`.  The model nests
these calls to a given depth; a vote that waits is never new, so one level is all there is
(`reprocess_depth`).

The environment answers the same throughout one operation.  Relaying and notification are
left out.
-/
import Stonecoin.LockCandidates
import Stonecoin.GovernanceManager
import Mathlib.Data.Finset.Insert
import Mathlib.Data.Finset.Filter

namespace Stonecoin

/-- `CInstantSend`; of `pCurrentBlockIndex` the height. -/
structure CInstantSend where
  pCurrentBlockIndex : Option ℤ
  mapLockRequestAccepted : AList fun _ : UInt256 => CTxLockRequest
  mapLockRequestRejected : AList fun _ : UInt256 => CTxLockRequest
  mapTxLockVotes : AList fun _ : UInt256 => CTxLockVote
  mapTxLockVotesOrphan : AList fun _ : UInt256 => CTxLockVote
  mapTxLockCandidates : AList fun _ : UInt256 => CTxLockCandidate
  mapVotedOutpoints : AList fun _ : COutPoint => Finset UInt256
  mapLockedOutpoints : AList fun _ : COutPoint => UInt256
  mapMasternodeOrphanVotes : AList fun _ : COutPoint => ℤ

namespace CInstantSend

def ORPHAN_VOTE_SECONDS : ℤ := 60

def init : CInstantSend := ⟨none, ∅, ∅, ∅, ∅, ∅, ∅, ∅, ∅⟩

variable (hash : UInt256 → COutPoint → COutPoint → UInt256) (env : InstantEnv)

/-! ### Lookups -/

def votedHashes (m : CInstantSend) (outpoint : COutPoint) : Finset UInt256 :=
  (m.mapVotedOutpoints.lookup outpoint).getD ∅

/-- `mapTxLockCandidates.find(hash)->second.HasMasternodeVoted(outpoint, outpointMasternode)`. -/
def hasVotedIn (m : CInstantSend) (outpoint outpointMasternode : COutPoint) (txHash : UInt256) :
    Bool :=
  match m.mapTxLockCandidates.lookup txHash with
  | none => env.hasVotedAtEnd
  | some c => c.hasMasternodeVoted outpoint outpointMasternode

def isEnoughOrphanVotesForTxAndOutPoint (m : CInstantSend) (txHash : UInt256)
    (outpoint : COutPoint) : Bool :=
  COutPointLock.SIGNATURES_REQUIRED ≤
    m.mapTxLockVotesOrphan.entries.countP fun e => e.2.txHash = txHash ∧ e.2.outpoint = outpoint

def isEnoughOrphanVotesForTx (m : CInstantSend) (txLockRequest : CTxLockRequest) : Bool :=
  txLockRequest.vin.all fun txin =>
    m.isEnoughOrphanVotesForTxAndOutPoint txLockRequest.hash txin.prevout

def isLockedInstantSendTransaction (m : CInstantSend) (txHash : UInt256) : Bool :=
  if !env.fEnableInstantSend || env.fLargeWorkForkFound || env.fLargeWorkInvalidChainFound ||
      !env.isSporkActive then false
  else
    match m.mapTxLockCandidates.lookup txHash with
    | none => false
    | some c =>
      !c.mapOutPointLocks.entries.isEmpty &&
        c.mapOutPointLocks.keys.all fun o => m.mapLockedOutpoints.lookup o = some txHash

def getAverageMasternodeOrphanVoteTime (m : CInstantSend) : ℤ :=
  let times := m.mapMasternodeOrphanVotes.entries.map Sigma.snd
  if times.isEmpty then 0
  else (times.sum % 2 ^ 64 / times.length).bmod (2 ^ 64)

/-- The masternode sends votes without a request faster than the others. -/
def isSpamming (m : CInstantSend) (outpointMasternode : COutPoint) : Bool :=
  match m.mapMasternodeOrphanVotes.lookup outpointMasternode with
  | none => false
  | some nPrevOrphanVote =>
    env.getTime < nPrevOrphanVote && m.getAverageMasternodeOrphanVoteTime < nPrevOrphanVote

/-! ### Chain events -/

def addVotedOutpoint (m : CInstantSend) (outpoint : COutPoint) (txHash : UInt256) : CInstantSend :=
  { m with
    mapVotedOutpoints :=
      m.mapVotedOutpoints.insert outpoint (insert txHash (m.votedHashes outpoint)) }

def setCandidate (m : CInstantSend) (txHash : UInt256) (c : CTxLockCandidate) : CInstantSend :=
  { m with mapTxLockCandidates := m.mapTxLockCandidates.insert txHash c }

def setVoteHeight (nHeightNew : ℤ) (m : CInstantSend) (nVoteHash : UInt256) : CInstantSend :=
  match m.mapTxLockVotes.lookup nVoteHash with
  | none => m
  | some vote =>
    { m with
      mapTxLockVotes :=
        m.mapTxLockVotes.insert nVoteHash { vote with nConfirmedHeight := nHeightNew } }

/-- `mapTxLockVotes[hash].SetConfirmedHeight`: an empty vote is made if none is there. -/
def setOrphanVoteHeight (nHeightNew : ℤ) (m : CInstantSend) (nVoteHash : UInt256) : CInstantSend :=
  let vote := (m.mapTxLockVotes.lookup nVoteHash).getD
    ⟨0, .null, .null, [], -1, env.getTime⟩
  { m with
    mapTxLockVotes :=
      m.mapTxLockVotes.insert nVoteHash { vote with nConfirmedHeight := nHeightNew } }

/-- The candidate of `SyncTransaction` and the votes it holds. -/
def syncCandidate (m : CInstantSend) (txHash : UInt256) (nHeightNew : ℤ) : CInstantSend :=
  match m.mapTxLockCandidates.lookup txHash with
  | none => m
  | some c =>
    let votes := c.mapOutPointLocks.entries.flatMap fun e =>
      e.2.mapMasternodeVotes.entries.map Sigma.snd
    (votes.map (·.getHash hash)).foldl (setVoteHeight nHeightNew)
      (m.setCandidate txHash { c with nConfirmedHeight := nHeightNew })

def syncTransaction (m : CInstantSend) (tx : CTransaction) (nHeightNew : ℤ) : CInstantSend :=
  if tx.isCoinBase then m
  else
    let m := m.syncCandidate hash tx.hash nHeightNew
    (m.mapTxLockVotesOrphan.entries.filter fun e => e.2.txHash = tx.hash).foldl
      (fun m e => m.setOrphanVoteHeight env nHeightNew e.1) m

def chainEvent (m : CInstantSend) : ChainEvent → CInstantSend
  | .syncTransaction tx nHeightNew => m.syncTransaction hash env tx nHeightNew
  | .updatedBlockTip nHeight => { m with pCurrentBlockIndex := some nHeight }

/-! ### Completing a lock -/

/-- `ResolveConflicts`, and what the chain reports meanwhile. -/
def resolveConflicts (m : CInstantSend) (c : CTxLockCandidate) : Bool × CInstantSend :=
  if env.nInstantSendKeepLock < 1 then (false, m)
  else if !c.isAllOutPointsReady then (true, m)
  else if c.txLockRequest.vin.any fun txin =>
      match m.mapLockedOutpoints.lookup txin.prevout with
      | none => false
      | some hashConflicting => c.txLockRequest.hash ≠ hashConflicting then (false, m)
  else
    let r := env.resolveConflicts c.txLockRequest
    (r.1, r.2.foldl (chainEvent hash env) m)

def lockTransactionInputs (m : CInstantSend) (c : CTxLockCandidate) : CInstantSend :=
  if !c.isAllOutPointsReady then m
  else
    { m with
      mapLockedOutpoints :=
        c.mapOutPointLocks.keys.foldl (fun locked o => insertNew locked o c.txLockRequest.hash)
          m.mapLockedOutpoints }

def tryToFinalizeLockCandidate (m : CInstantSend) (txHash : UInt256) : CInstantSend :=
  match m.mapTxLockCandidates.lookup txHash with
  | none => m
  | some c =>
    if c.isAllOutPointsReady &&
        !m.isLockedInstantSendTransaction env c.txLockRequest.hash then
      match m.resolveConflicts hash env c with
      | (true, m) => m.lockTransactionInputs c
      | (false, m) => m
    else m

/-! ### The node's own votes -/

/-- A vote goes to the candidate it names; `none` if the candidate refuses it. -/
def addVote (m : CInstantSend) (vote : CTxLockVote) : Option CInstantSend :=
  match m.mapTxLockCandidates.lookup vote.txHash with
  | none => none
  | some c => (c.addVote vote).map (m.setCandidate vote.txHash)

def storeVote (m : CInstantSend) (vote : CTxLockVote) : CInstantSend :=
  { m with mapTxLockVotes := insertNew m.mapTxLockVotes (vote.getHash hash) vote }

/-- `Vote` for one outpoint; `none` where it returns. -/
def voteOutpoint (m : CInstantSend) (txHash : UInt256) (outpoint : COutPoint) :
    Option CInstantSend :=
  let nPrevoutHeight := env.getUTXOHeight outpoint
  if nPrevoutHeight = -1 then none
  else
    let n := env.getMasternodeRank env.activeMasternode (nPrevoutHeight + 4)
    if n = -1 then some m
    else if COutPointLock.SIGNATURES_TOTAL < n then some m
    else if ((m.votedHashes outpoint).filter fun txHash =>
        m.hasVotedIn env outpoint env.activeMasternode txHash = true).Nonempty then some m
    else
      match CTxLockVote.sign env txHash outpoint with
      | none => none
      | some vote =>
        if !vote.checkSignature env then none
        else
          let m := m.storeVote hash vote
          match m.addVote vote with
          | none => some m
          | some m => some (m.addVotedOutpoint outpoint txHash)

/-- The loop of `Vote` over the outpoints of the candidate. -/
def voteLoop (m : CInstantSend) (txHash : UInt256) : List COutPoint → CInstantSend
  | [] => m
  | outpoint :: outpoints =>
    match m.voteOutpoint hash env txHash outpoint with
    | none => m
    | some m => voteLoop m txHash outpoints

def vote (m : CInstantSend) (txHash : UInt256) : CInstantSend :=
  if !env.fMasterNode then m
  else
    match m.mapTxLockCandidates.lookup txHash with
    | none => m
    | some c =>
      m.voteLoop hash env txHash ((iterate COutPoint.lt c.mapOutPointLocks).map Sigma.fst)

/-! ### Votes and requests -/

/-- The request that came with this hash, accepted or rejected. -/
def findLockRequest (m : CInstantSend) (txHash : UInt256) : Option CTxLockRequest :=
  match m.mapLockRequestAccepted.lookup txHash with
  | some txLockRequest => some txLockRequest
  | none => m.mapLockRequestRejected.lookup txHash

/-- A vote without a candidate counts against the rate of its masternode. -/
def rateLimit (m : CInstantSend) (vote : CTxLockVote) : Bool × CInstantSend :=
  if m.isSpamming env vote.outpointMasternode then (false, m)
  else
    -- an `int` holds the time
    (true, { m with
      mapMasternodeOrphanVotes := m.mapMasternodeOrphanVotes.insert vote.outpointMasternode
        ((env.getTime + 60 * 10).bmod (2 ^ 32)) })

def storeOrphan (m : CInstantSend) (vote : CTxLockVote) : CInstantSend :=
  { m with mapTxLockVotesOrphan := m.mapTxLockVotesOrphan.insert (vote.getHash hash) vote }

def eraseOrphan (m : CInstantSend) (nVoteHash : UInt256) : CInstantSend :=
  { m with mapTxLockVotesOrphan := m.mapTxLockVotesOrphan.erase nVoteHash }

def processOrphanVote (reprocess : CInstantSend → CTxLockRequest → CInstantSend)
    (m : CInstantSend) (vote : CTxLockVote) : Bool × CInstantSend :=
  if (m.mapTxLockVotesOrphan.lookup (vote.getHash hash)).isSome then m.rateLimit env vote
  else
    let m := m.storeOrphan hash vote
    match m.findLockRequest vote.txHash with
    | none => m.rateLimit env vote
    | some txLockRequest =>
      if m.isEnoughOrphanVotesForTx txLockRequest then (true, reprocess m txLockRequest)
      else m.rateLimit env vote

def processCandidateVote (m : CInstantSend) (vote : CTxLockVote) : Bool × CInstantSend :=
  if ((m.votedHashes vote.outpoint).filter fun txHash => txHash ≠ vote.txHash ∧
      m.hasVotedIn env vote.outpoint vote.outpointMasternode txHash = true).Nonempty then (false, m)
  else
    let m := m.addVotedOutpoint vote.outpoint vote.txHash
    match m.addVote vote with
    | none => (false, m)
    | some m => (true, m.tryToFinalizeLockCandidate hash env vote.txHash)

def processTxLockVoteWith (reprocess : CInstantSend → CTxLockRequest → CInstantSend)
    (m : CInstantSend) (vote : CTxLockVote) : Bool × CInstantSend :=
  if !vote.isValid env then (false, m)
  else
    match m.mapTxLockCandidates.lookup vote.txHash with
    | none => m.processOrphanVote hash env reprocess vote
    | some _ => m.processCandidateVote hash env vote

/-- One vote of `ProcessOrphanTxLockVotes`: it is erased if `ProcessTxLockVote` returns
`true`. -/
def replayOrphan (reprocess : CInstantSend → CTxLockRequest → CInstantSend)
    (m : CInstantSend) (e : Sigma fun _ : UInt256 => CTxLockVote) : CInstantSend :=
  match m.processTxLockVoteWith hash env reprocess e.2 with
  | (true, m) => m.eraseOrphan e.1
  | (false, m) => m

def processOrphanTxLockVotesWith (reprocess : CInstantSend → CTxLockRequest → CInstantSend)
    (m : CInstantSend) : CInstantSend :=
  (iterate uint256Lt m.mapTxLockVotesOrphan).foldl (replayOrphan hash env reprocess) m

def createTxLockCandidate (m : CInstantSend) (txLockRequest : CTxLockRequest) :
    Bool × CInstantSend :=
  if !txLockRequest.isValid env (!m.isEnoughOrphanVotesForTx txLockRequest) then (false, m)
  else if (m.mapTxLockCandidates.lookup txLockRequest.hash).isSome then (true, m)
  else (true, m.setCandidate txLockRequest.hash (.of txLockRequest))

def processTxLockRequestWith (reprocess : CInstantSend → CTxLockRequest → CInstantSend)
    (m : CInstantSend) (txLockRequest : CTxLockRequest) : Bool × CInstantSend :=
  if txLockRequest.vin.any fun txin => (m.mapLockedOutpoints.lookup txin.prevout).isSome then
    (false, m)
  else
    match m.createTxLockCandidate env txLockRequest with
    | (false, m) => (false, m)
    | (true, m) =>
      let m := m.vote hash env txLockRequest.hash
      let m := m.processOrphanTxLockVotesWith hash env reprocess
      (true, m.tryToFinalizeLockCandidate hash env txLockRequest.hash)

/-- `ProcessTxLockRequest`, nested this deep in itself. -/
def reprocess : ℕ → CInstantSend → CTxLockRequest → CInstantSend
  | 0, m, _ => m
  | depth + 1, m, txLockRequest =>
    (m.processTxLockRequestWith hash env (reprocess depth) txLockRequest).2

def processTxLockRequest (m : CInstantSend) (txLockRequest : CTxLockRequest) :
    Bool × CInstantSend :=
  m.processTxLockRequestWith hash env (reprocess hash env 0) txLockRequest

def processTxLockVote (m : CInstantSend) (vote : CTxLockVote) : Bool × CInstantSend :=
  m.processTxLockVoteWith hash env (reprocess hash env 1) vote

/-- A vote as it comes out of a message, which has no height and no time. -/
def receive (vote : CTxLockVote) : CTxLockVote :=
  { vote with nConfirmedHeight := -1, nTimeCreated := env.getTime }

def processMessage (m : CInstantSend) (vote : CTxLockVote) : CInstantSend :=
  let vote := receive env vote
  if env.fLiteMode || !env.isSporkActive || !env.isMasternodeListSynced ||
      env.nVersion < MIN_INSTANTSEND_PROTO_VERSION then m
  else if (m.mapTxLockVotes.lookup (vote.getHash hash)).isSome then m
  else ((m.storeVote hash vote).processTxLockVote hash env vote).2

def acceptLockRequest (m : CInstantSend) (txLockRequest : CTxLockRequest) : CInstantSend :=
  { m with
    mapLockRequestAccepted := insertNew m.mapLockRequestAccepted txLockRequest.hash txLockRequest }

def rejectLockRequest (m : CInstantSend) (txLockRequest : CTxLockRequest) : CInstantSend :=
  { m with
    mapLockRequestRejected := insertNew m.mapLockRequestRejected txLockRequest.hash txLockRequest }

/-! ### Expiry -/

/-- `CheckAndRemove` of one candidate, with all that is recorded for its outpoints. -/
def removeCandidate (m : CInstantSend) (e : Sigma fun _ : UInt256 => CTxLockCandidate) :
    CInstantSend :=
  { m with
    mapLockedOutpoints :=
      e.2.mapOutPointLocks.keys.foldl (fun locked o => locked.erase o) m.mapLockedOutpoints
    mapVotedOutpoints :=
      e.2.mapOutPointLocks.keys.foldl (fun voted o => voted.erase o) m.mapVotedOutpoints
    mapLockRequestAccepted := m.mapLockRequestAccepted.erase e.2.txLockRequest.hash
    mapLockRequestRejected := m.mapLockRequestRejected.erase e.2.txLockRequest.hash
    mapTxLockCandidates := m.mapTxLockCandidates.erase e.1 }

def expiredCandidates (m : CInstantSend) (nHeight : ℤ) :
    List (Sigma fun _ : UInt256 => CTxLockCandidate) :=
  m.mapTxLockCandidates.entries.filter fun e => e.2.isExpired env nHeight

def removeVotes (nHeight : ℤ) (m : CInstantSend) : CInstantSend :=
  let expired := (m.mapTxLockVotes.entries.filter fun e => e.2.isExpired env nHeight).map Sigma.fst
  let expiredOrphan := (m.mapTxLockVotesOrphan.entries.filter fun e =>
    ORPHAN_VOTE_SECONDS < env.getTime - e.2.nTimeCreated).map Sigma.fst
  let expiredTimes := (m.mapMasternodeOrphanVotes.entries.filter fun e =>
    e.2 < env.getTime).map Sigma.fst
  { m with
    mapTxLockVotes := (expired ++ expiredOrphan).foldl (fun votes k => votes.erase k)
      m.mapTxLockVotes
    mapTxLockVotesOrphan := expiredOrphan.foldl (fun votes k => votes.erase k)
      m.mapTxLockVotesOrphan
    mapMasternodeOrphanVotes := expiredTimes.foldl (fun times k => times.erase k)
      m.mapMasternodeOrphanVotes }

def checkAndRemove (m : CInstantSend) : CInstantSend :=
  match m.pCurrentBlockIndex with
  | none => m
  | some nHeight =>
    removeVotes env nHeight ((m.expiredCandidates env nHeight).foldl removeCandidate m)

end CInstantSend

/-! ### Runs -/

/-- What can happen to `CInstantSend`. -/
inductive InstantEvent
  /-- A `TXLOCKVOTE` message. -/
  | message (vote : CTxLockVote)
  | processTxLockVote (vote : CTxLockVote)
  | processTxLockRequest (txLockRequest : CTxLockRequest)
  | vote (txHash : UInt256)
  | acceptLockRequest (txLockRequest : CTxLockRequest)
  | rejectLockRequest (txLockRequest : CTxLockRequest)
  | chain (event : ChainEvent)
  | checkAndRemove

/-- One event, with the answers of the rest of the node. -/
def CInstantSend.step (hash : UInt256 → COutPoint → COutPoint → UInt256) (m : CInstantSend) :
    InstantEnv × InstantEvent → CInstantSend
  | (env, .message vote) => m.processMessage hash env vote
  | (env, .processTxLockVote vote) => (m.processTxLockVote hash env vote).2
  | (env, .processTxLockRequest txLockRequest) => (m.processTxLockRequest hash env txLockRequest).2
  | (env, .vote txHash) => m.vote hash env txHash
  | (_, .acceptLockRequest txLockRequest) => m.acceptLockRequest txLockRequest
  | (_, .rejectLockRequest txLockRequest) => m.rejectLockRequest txLockRequest
  | (env, .chain event) => m.chainEvent hash env event
  | (env, .checkAndRemove) => m.checkAndRemove env

/-! ### An environment for concrete runs -/

def sixMasternodes : List COutPoint := (List.range 6).map fun i => ⟨7, i⟩

/-- A synchronised node that is no masternode.  Every output is unspent and was created in the
first block, all signatures are good and each of the six masternodes may vote on any output. -/
def sampleEnv (getTime : ℤ) : InstantEnv where
  fLiteMode := false
  isSporkActive := true
  fEnableInstantSend := true
  fLargeWorkForkFound := false
  fLargeWorkInvalidChainFound := false
  isMasternodeListSynced := true
  nVersion := 70206
  getTime := getTime
  nInstantSendKeepLock := 24
  fMasterNode := false
  activeMasternode := .null
  activePubKeyMasternode := []
  signMessage := fun _ _ => none
  verifyMessage := fun _ _ _ _ => true
  getMasternodeInfo := fun mn => if mn ∈ sixMasternodes then some [] else none
  getMasternodeRank := fun mn _ => if mn ∈ sixMasternodes then mn.n + 1 else -1
  getCoins := fun _ => some ⟨false, [.of COIN [], .of COIN []], 0, 1⟩
  getTransaction := fun _ => none
  mapBlockIndex := fun _ => none
  nChainHeight := 100
  checkFinalTx := fun _ => true
  isNormalPaymentScript := fun _ => true
  nInstantSendMaxValue := 1000
  resolveConflicts := fun _ => (true, [])
  hasVotedAtEnd := false

/-- A vote hash that tells the votes of the concrete runs apart. -/
def sampleHash (txHash : UInt256) (o mn : COutPoint) : UInt256 :=
  txHash + 100 * (o.hash + BitVec.ofNat 256 o.n) + 10000 * BitVec.ofNat 256 mn.n

def sampleRequest (txHash : UInt256) (outpoints : List COutPoint) : CTxLockRequest :=
  ⟨txHash, 1, outpoints.map fun o => ⟨o, [], 0⟩, [.of (COIN / 2) []], 0⟩

/-- The votes of some masternodes for the lock of an output in a transaction. -/
def sampleVotes (txHash : UInt256) (o : COutPoint) (masternodes : List COutPoint) :
    List InstantEvent :=
  masternodes.map fun mn => .message ⟨txHash, o, mn, [], -1, 0⟩

def eventsAt (getTime : ℤ) (events : List InstantEvent) : List (InstantEnv × InstantEvent) :=
  events.map fun event => (sampleEnv getTime, event)

end Stonecoin
