/-
Verifications of masternodes, `CheckAndRemove`, and the events of `CMasternodeMan`
(`masternodeman.cpp`).

The random block whose ranks decide who is asked to repeat an announcement is left open: the
peers are a parameter.  `none` is a message whose processing does not end.

`runCalls` are the calls of `CheckMnbAndUpdateMasternodeList` in a run, by announcements and
by the replies that `CheckAndRemove` takes up, each with the state it is made in.
-/
import Stonecoin.LockCandidates
import Stonecoin.MasternodeMan
import Stonecoin.Runs

namespace Stonecoin

open MasternodeState

variable (crypto : MasternodeCrypto) (env : ManEnv)

/-! ### Verifications -/

/-- What else a verification depends on. -/
structure VerifyEnv where
  /-- `pnode->addr`. -/
  pnodeAddr : CService
  /-- `mWeAskedForVerification[pnode->addr]`. -/
  asked : CMasternodeVerification
  /-- The fulfilled requests of the peer. -/
  requestFulfilled : Bool
  doneFulfilled : Bool
  ranks : RankEnv
  /-- `pCurrentBlockIndex->nHeight`. -/
  currentHeight : ℤ
  /-- The node can sign the verification of a masternode. -/
  signs : CMasternode → Bool

def CMasternodeVerification.getHash (mnv : CMasternodeVerification) : UInt256 :=
  crypto.hashVerification mnv.vin1 mnv.vin2 mnv.addr mnv.nonce mnv.nBlockHeight

def verifyMessage1 (addr : CService) (nonce : ℤ) (blockHash : UInt256) : String :=
  crypto.addrToString addr ++ toString nonce ++ crypto.hashToString blockHash

/-- The loop of `ProcessVerifyReply` over the masternodes: the list, whether the real
masternode was found, and whether the function returned from the loop. -/
def verifyReplyLoop (v : VerifyEnv) (vchSig : List UInt8) (strMessage : String) :
    List CMasternode → Option (List CMasternode × Bool × Bool)
  | [] => some ([], false, false)
  | mn :: mns =>
    if mn.addr = v.pnodeAddr ∧ crypto.verifyMessage mn.pubKeyMasternode vchSig strMessage then
      let mn := if !mn.isPoSeVerified then mn.decreasePoSeBanScore else mn
      -- `continue` skips the step to the next masternode
      if env.activeVin = CTxIn.default then none
      else if !v.signs mn then some (mn :: mns, true, true)
      else (verifyReplyLoop v vchSig strMessage mns).map fun r => (mn :: r.1, true, r.2.2)
    else (verifyReplyLoop v vchSig strMessage mns).map fun r => (mn :: r.1, r.2)

namespace CMasternodeMan

/-- The real masternode of an address was found: the scores of the others go up. -/
def blameOthers (v : VerifyEnv) (vchSig : List UInt8) (strMessage : String)
    (mns : List CMasternode) : List CMasternode :=
  mns.map fun mn =>
    if mn.addr = v.pnodeAddr ∧ !crypto.verifyMessage mn.pubKeyMasternode vchSig strMessage then
      mn.increasePoSeBanScore
    else mn

/-- The end of `ProcessVerifyReply`, when the reply is the one that was asked for. -/
def judgeVerifyReply (man : CMasternodeMan) (v : VerifyEnv) (mnv : CMasternodeVerification)
    (strMessage : String) : Option CMasternodeMan :=
  (verifyReplyLoop crypto env v mnv.vchSig1 strMessage man.vMasternodes).map fun r =>
    { man with
      vMasternodes :=
        if r.2.2 || !r.2.1 then r.1 else blameOthers crypto v mnv.vchSig1 strMessage r.1 }

def processVerifyReply (man : CMasternodeMan) (v : VerifyEnv) (mnv : CMasternodeVerification) :
    Option CMasternodeMan :=
  if !v.requestFulfilled then some man
  else if v.asked.nonce ≠ mnv.nonce then some man
  else if v.asked.nBlockHeight ≠ mnv.nBlockHeight then some man
  else
    match v.ranks.getBlockHash mnv.nBlockHeight with
    | none => some man
    | some blockHash =>
      if v.doneFulfilled then some man
      else man.judgeVerifyReply crypto env v mnv
        (verifyMessage1 crypto v.pnodeAddr mnv.nonce blockHash)

/-- A verification of the masternode at a place is accepted. -/
def creditVerified (man : CMasternodeMan) (i : ℕ) (pmn1 : CMasternode)
    (mnv : CMasternodeVerification) : CMasternodeMan :=
  let man := man.put i (if !pmn1.isPoSeVerified then pmn1.decreasePoSeBanScore else pmn1)
  { man with
    vMasternodes := man.vMasternodes.map fun mn =>
      if mn.addr ≠ mnv.addr ∨ mn.vin.prevout = mnv.vin1.prevout then mn
      else mn.increasePoSeBanScore }

def processVerifyBroadcast (man : CMasternodeMan) (v : VerifyEnv)
    (mnv : CMasternodeVerification) : CMasternodeMan :=
  if (man.mapSeenMasternodeVerification.lookup (mnv.getHash crypto)).isSome then man
  else
    let man := { man with
      mapSeenMasternodeVerification := man.mapSeenMasternodeVerification.insert
        (mnv.getHash crypto) mnv }
    if mnv.nBlockHeight < v.currentHeight - MAX_POSE_BLOCKS then man
    else if mnv.vin1.prevout = mnv.vin2.prevout then man
    else
      match v.ranks.getBlockHash mnv.nBlockHeight with
      | none => man
      | some blockHash =>
        let nRank := getMasternodeRank v.ranks man.vMasternodes mnv.vin2 mnv.nBlockHeight
          MIN_POSE_PROTO_VERSION true
        if nRank = -1 then man
        else if MAX_POSE_RANK < nRank then man
        else
          let strMessage1 := verifyMessage1 crypto mnv.addr mnv.nonce blockHash
          let strMessage2 := strMessage1 ++ crypto.outPointToString mnv.vin1.prevout ++
            crypto.outPointToString mnv.vin2.prevout
          match man.find mnv.vin1, man.find mnv.vin2 with
          | some (i, pmn1), some (_, pmn2) =>
            if pmn1.addr ≠ mnv.addr then man
            -- the source returns when a signature does verify
            else if crypto.verifyMessage pmn1.pubKeyMasternode mnv.vchSig1 strMessage1 then man
            else if crypto.verifyMessage pmn2.pubKeyMasternode mnv.vchSig2 strMessage2 then man
            else man.creditVerified i pmn1 mnv
          | _, _ => man

/-- `ProcessMessage` for `MNVERIFY`.  A request to verify oneself changes nothing here. -/
def processVerify (man : CMasternodeMan) (v : VerifyEnv) (mnv : CMasternodeVerification) :
    Option CMasternodeMan :=
  if env.fLiteMode || !env.isBlockchainSynced then some man
  else if mnv.vchSig1.isEmpty then some man
  else if mnv.vchSig2.isEmpty then man.processVerifyReply crypto env v mnv
  else some (man.processVerifyBroadcast crypto v mnv)

end CMasternodeMan

/-! ### `CheckAndRemove` -/

structure RemoveEnv where
  /-- `pCurrentBlockIndex`, with its height. -/
  currentHeight : Option ℤ
  /-- The peers that are asked to repeat the announcement of a masternode. -/
  peers : CMasternode → Finset CNetAddr

/-- The entries of a map that meet a condition are erased. -/
def eraseWhere {V : Type} (p : V → Bool) (m : AList fun _ : UInt256 => V) :
    AList fun _ : UInt256 => V :=
  ((iterate uint256Lt m).filter fun e => p e.2).foldl (fun m e => m.erase e.1) m

namespace CMasternodeMan

def check (man : CMasternodeMan) : CMasternodeMan :=
  { man with vMasternodes := man.vMasternodes.map (·.check env man.size false) }

/-- The first loop of `CheckAndRemove`, over the masternodes: spent ones are removed, and for
those that need a new start some peers are asked. -/
def removeLoop (c : RemoveEnv) :
    List CMasternode → ℤ → CMasternodeMan → List CMasternode × CMasternodeMan
  | [], _, man => ([], man)
  | mn :: mns, nAskForMnbRecovery, man =>
    let hash := mn.toBroadcast.getHash crypto
    if mn.isOutpointSpent then
      removeLoop c mns nAskForMnbRecovery { man.forget hash with fMasternodesRemoved := true }
    else if c.currentHeight.isSome && decide (0 < nAskForMnbRecovery) && env.isSynced &&
        mn.isNewStartRequired && !man.isMnbRecoveryRequested hash then
      let man := { man with
        mMnbRecoveryRequests := man.mMnbRecoveryRequests.insert hash
          (env.getTime + MNB_RECOVERY_WAIT_SECONDS, c.peers mn) }
      let n := if (c.peers mn).card = 0 then nAskForMnbRecovery else nAskForMnbRecovery - 1
      let r := removeLoop c mns n man
      (mn :: r.1, r.2)
    else
      let r := removeLoop c mns nAskForMnbRecovery man
      (mn :: r.1, r.2)

/-- The announcement that the replies for a masternode agree on, when the wait is over. -/
def reprocessed (man : CMasternodeMan) (e : Sigma fun _ : UInt256 => List CMasternodeBroadcast) :
    Option CMasternodeBroadcast :=
  if ((man.mMnbRecoveryRequests.lookup e.1).elim 0 Prod.fst) < env.getTime ∧
      MNB_RECOVERY_QUORUM_REQUIRED ≤ e.2.length then
    e.2.head?.map fun mnb => { mnb with fRecovery := true }
  else none

/-- `mMnbRecoveryRequests[hash]` makes a request where there is none. -/
def touchRequest (man : CMasternodeMan) (hash : UInt256) : CMasternodeMan :=
  { man with mMnbRecoveryRequests := insertNew man.mMnbRecoveryRequests hash (0, ∅) }

/-- The second loop of `CheckAndRemove`, over the replies. -/
def recover (man : CMasternodeMan) (e : Sigma fun _ : UInt256 => List CMasternodeBroadcast) :
    CMasternodeMan :=
  let expired := decide (((man.mMnbRecoveryRequests.lookup e.1).elim 0 Prod.fst) < env.getTime)
  let man' := (man.reprocessed env e).elim (man.touchRequest e.1) fun mnb =>
    ((man.touchRequest e.1).checkMnbAndUpdateMasternodeList crypto env none mnb).1
  if expired then { man' with mMnbRecoveryGoodReplies := man'.mMnbRecoveryGoodReplies.erase e.1 }
  else man'

def checkAndRebuildMasternodeIndex (man : CMasternodeMan) : CMasternodeMan :=
  if env.getTime - man.nLastIndexRebuildTime < MIN_INDEX_REBUILD_TIME then man
  else if man.indexMasternodes.nSize ≤ MAX_EXPECTED_INDEX_SIZE then man
  else if man.indexMasternodes.nSize ≤ man.size then man
  else
    { man with
      indexMasternodesOld := man.indexMasternodes
      indexMasternodes :=
        man.vMasternodes.foldl (fun index mn => index.addMasternodeVIN mn.vin) .empty
      fIndexRebuilt := true
      nLastIndexRebuildTime := env.getTime }

/-- The state when the second loop of `CheckAndRemove` starts. -/
def removeSpent (c : RemoveEnv) (man : CMasternodeMan) : CMasternodeMan :=
  let man := man.check env
  let r := removeLoop crypto env c man.vMasternodes MNB_RECOVERY_MAX_ASK_ENTRIES man
  { r.2 with vMasternodes := r.1 }

/-- The end of `CheckAndRemove`: old entries go, the index is rebuilt. -/
def expire (c : RemoveEnv) (man : CMasternodeMan) : CMasternodeMan :=
  let man := { man with
    mMnbRecoveryRequests := eraseWhere
      (fun request => MNB_RECOVERY_RETRY_SECONDS < env.getTime - request.1)
      man.mMnbRecoveryRequests
    mapSeenMasternodePing := eraseWhere (·.isExpired env) man.mapSeenMasternodePing
    mapSeenMasternodeVerification := eraseWhere
      (fun mnv => mnv.nBlockHeight < c.currentHeight.getD 0 - MAX_POSE_BLOCKS)
      man.mapSeenMasternodeVerification }
  if man.fMasternodesRemoved then
    { man.checkAndRebuildMasternodeIndex env with
      fMasternodesAdded := false
      fMasternodesRemoved := false }
  else man

def checkAndRemove (c : RemoveEnv) (man : CMasternodeMan) : CMasternodeMan :=
  if !env.isMasternodeListSynced then man
  else
    let man := man.removeSpent crypto env c
    ((iterate uint256Lt man.mMnbRecoveryGoodReplies).foldl (recover crypto env) man).expire env c

end CMasternodeMan

/-! ### Events -/

inductive ManEvent
  | announce (pfrom : CNetAddr) (a : MnAnnounce)
  | ping (mnp : CMasternodePing)
  | verify (v : VerifyEnv) (mnv : CMasternodeVerification)
  | checkAndRemove (c : RemoveEnv)

def CMasternodeMan.step (man : CMasternodeMan) (e : ManEnv × ManEvent) : Option CMasternodeMan :=
  match e.2 with
  | .announce pfrom a => some (man.processAnnounce crypto e.1 pfrom a)
  | .ping mnp => some (man.processPing crypto e.1 mnp)
  | .verify v mnv => man.processVerify crypto e.1 v mnv
  | .checkAndRemove c => some (man.checkAndRemove crypto e.1 c)

structure MnbCall where
  env : ManEnv
  man : CMasternodeMan
  pfrom : Option CNetAddr
  mnb : CMasternodeBroadcast

/-- The state after a call. -/
def MnbCall.result (call : MnbCall) : CMasternodeMan :=
  (call.man.checkMnbAndUpdateMasternodeList crypto call.env call.pfrom call.mnb).1

/-- The calls of the second loop of `CheckAndRemove`. -/
def recoverCalls : CMasternodeMan →
    List (Sigma fun _ : UInt256 => List CMasternodeBroadcast) → List MnbCall
  | _, [] => []
  | man, e :: es =>
    (man.reprocessed env e).toList.map (fun mnb => ⟨env, man.touchRequest e.1, none, mnb⟩) ++
      recoverCalls (man.recover crypto env e) es

def eventCalls (man : CMasternodeMan) (e : ManEnv × ManEvent) : List MnbCall :=
  match e.2 with
  | .announce pfrom a =>
    if e.1.fLiteMode || !e.1.isBlockchainSynced then [] else [⟨e.1, man, some pfrom, a.read⟩]
  | .checkAndRemove c =>
    if !e.1.isMasternodeListSynced then []
    else
      recoverCalls crypto e.1 (man.removeSpent crypto e.1 c)
        (iterate uint256Lt (man.removeSpent crypto e.1 c).mMnbRecoveryGoodReplies)
  | _ => []

def runCalls : CMasternodeMan → List (ManEnv × ManEvent) → List MnbCall
  | _, [] => []
  | man, e :: es =>
    eventCalls crypto man e ++ (man.step crypto e).elim [] fun man' => runCalls man' es

def runPings : CMasternodeMan → List (ManEnv × ManEvent) →
    List (ManEnv × CMasternodeMan × CMasternodePing)
  | _, [] => []
  | man, e :: es =>
    (match e.2 with
      | .ping mnp => [(e.1, man, mnp)]
      | _ => []) ++
    (man.step crypto e).elim [] fun man' => runPings man' es

def ManRun (man : CMasternodeMan) (es : List (ManEnv × ManEvent)) (man' : CMasternodeMan) : Prop :=
  Runs.Run (fun man e man' => man.step crypto e = some man') man es man'

end Stonecoin
