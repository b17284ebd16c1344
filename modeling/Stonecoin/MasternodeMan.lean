/-
The list of masternodes (`masternodeman.h`, `masternodeman.cpp`): announcements and pings.

A `CMasternode*` is a place in the list.  Left out are the tables of who asked whom for the
list, the requests to peers and the peers' scores; of `NotifyMasternodeUpdates`, which calls
the governance code, only the flags are kept.
-/
import Stonecoin.MasternodeIndex
import Stonecoin.MasternodeRanks
import Mathlib.Data.Finset.Card

namespace Stonecoin

open MasternodeState

def MAX_EXPECTED_INDEX_SIZE : ℤ := 30000
def MIN_INDEX_REBUILD_TIME : ℤ := 3600
def MIN_POSE_PROTO_VERSION : ℤ := 70203
def MAX_POSE_RANK : ℤ := 10
def MAX_POSE_BLOCKS : ℤ := 10
def MNB_RECOVERY_QUORUM_TOTAL : ℕ := 10
def MNB_RECOVERY_QUORUM_REQUIRED : ℕ := 6
def MNB_RECOVERY_MAX_ASK_ENTRIES : ℤ := 10
def MNB_RECOVERY_WAIT_SECONDS : ℤ := 60
def MNB_RECOVERY_RETRY_SECONDS : ℤ := 3 * 60 * 60

abbrev CNetAddr := List UInt8

structure CMasternodeVerification where
  vin1 : CTxIn
  vin2 : CTxIn
  addr : CService
  nonce : ℤ
  nBlockHeight : ℤ
  vchSig1 : List UInt8
  vchSig2 : List UInt8
deriving DecidableEq

structure CMasternodeMan where
  vMasternodes : List CMasternode
  mMnbRecoveryRequests : AList fun _ : UInt256 => ℤ × Finset CNetAddr
  mMnbRecoveryGoodReplies : AList fun _ : UInt256 => List CMasternodeBroadcast
  mapSeenMasternodeBroadcast : AList fun _ : UInt256 => ℤ × CMasternodeBroadcast
  mapSeenMasternodePing : AList fun _ : UInt256 => CMasternodePing
  mapSeenMasternodeVerification : AList fun _ : UInt256 => CMasternodeVerification
  indexMasternodes : CMasternodeIndex
  indexMasternodesOld : CMasternodeIndex
  fIndexRebuilt : Bool
  nLastIndexRebuildTime : ℤ
  fMasternodesAdded : Bool
  fMasternodesRemoved : Bool

variable (crypto : MasternodeCrypto) (env : ManEnv)

namespace CMasternodeMan

def init : CMasternodeMan :=
  ⟨[], ∅, ∅, ∅, ∅, ∅, CMasternodeIndex.empty, CMasternodeIndex.empty, false, 0, false, false⟩

def size (man : CMasternodeMan) : ℕ := man.vMasternodes.length

def find (man : CMasternodeMan) (vin : CTxIn) : Option (ℕ × CMasternode) :=
  (man.vMasternodes.findIdx? fun mn => mn.vin.prevout = vin.prevout).bind fun i =>
    (man.vMasternodes[i]?).map (i, ·)

def put (man : CMasternodeMan) (i : ℕ) (mn : CMasternode) : CMasternodeMan :=
  { man with vMasternodes := man.vMasternodes.set i mn }

def add (man : CMasternodeMan) (mn : CMasternode) : CMasternodeMan :=
  if (man.find mn.vin).isSome then man
  else
    { man with
      vMasternodes := man.vMasternodes ++ [mn]
      indexMasternodes := man.indexMasternodes.addMasternodeVIN mn.vin
      fMasternodesAdded := true }

def seePing (man : CMasternodeMan) (mnp : CMasternodePing) : CMasternodeMan :=
  { man with mapSeenMasternodePing := insertNew man.mapSeenMasternodePing (mnp.getHash crypto) mnp }

def seeBroadcast (man : CMasternodeMan) (hash : UInt256) (t : ℤ) (mnb : CMasternodeBroadcast) :
    CMasternodeMan :=
  { man with
    mapSeenMasternodeBroadcast := insertNew man.mapSeenMasternodeBroadcast hash (t, mnb) }

/-- `mapSeenMasternodeBroadcast[hash].second.lastPing = mnp`, if there is an entry. -/
def refreshSeen (man : CMasternodeMan) (hash : UInt256) (mnp : CMasternodePing) :
    CMasternodeMan :=
  match man.mapSeenMasternodeBroadcast.lookup hash with
  | none => man
  | some (t, mnb) =>
    { man with
      mapSeenMasternodeBroadcast := man.mapSeenMasternodeBroadcast.insert hash
        (t, { mnb with lastPing := mnp }) }

/-- `mapSeenMasternodeBroadcast.erase`. -/
def forget (man : CMasternodeMan) (hash : UInt256) : CMasternodeMan :=
  { man with mapSeenMasternodeBroadcast := man.mapSeenMasternodeBroadcast.erase hash }

def isMnbRecoveryRequested (man : CMasternodeMan) (hash : UInt256) : Bool :=
  (man.mMnbRecoveryRequests.lookup hash).isSome

end CMasternodeMan

/-! ### Pings -/

/-- The checks of `CheckAndUpdate`, for a masternode that is known. -/
def CMasternodePing.accepted (pmn : CMasternode) (fFromNewBroadcast : Bool)
    (mnp : CMasternodePing) : Bool :=
  if !mnp.simpleCheck env then false
  else if !fFromNewBroadcast && (pmn.isUpdateRequired || pmn.isNewStartRequired) then false
  else if (env.mapBlockIndex mnp.blockHash).any (· < env.height - 24) then false
  else if pmn.isPingedWithin env (MASTERNODE_MIN_MNP_SECONDS - 60) mnp.sigTime then false
  else mnp.checkSignature crypto pmn.pubKeyMasternode

def CMasternodePing.checkAndUpdate (man : CMasternodeMan) (pmn : CMasternode)
    (fFromNewBroadcast : Bool) (mnp : CMasternodePing) : CMasternodeMan × CMasternode × Bool :=
  if !mnp.accepted crypto env pmn fFromNewBroadcast then (man, pmn, false)
  else
    let pmn := { pmn with lastPing := mnp }
    let man := man.refreshSeen (pmn.toBroadcast.getHash crypto) mnp
    let pmn := pmn.check env man.size true
    (man, pmn, pmn.isEnabled)

/-! ### Announcements -/

def CMasternodeBroadcast.default : CMasternodeBroadcast :=
  (MnAnnounce.mk CTxIn.default ⟨[], 0⟩ [] [] [] env.getAdjustedTime PROTOCOL_VERSION
    CMasternodePing.empty).read

/-- The first members that `UpdateFromNewBroadcast` sets. -/
def CMasternode.renewed (pmn : CMasternode) (mnb : CMasternodeBroadcast) : CMasternode :=
  { pmn with
    pubKeyMasternode := mnb.pubKeyMasternode
    sigTime := mnb.sigTime
    vchSig := mnb.vchSig
    nProtocolVersion := mnb.nProtocolVersion
    addr := mnb.addr
    nPoSeBanScore := 0
    nPoSeBanHeight := 0
    nTimeLastChecked := 0 }

/-- The ping of `UpdateFromNewBroadcast`: an empty one is taken as it is. -/
def CMasternode.takePing (man : CMasternodeMan) (pmn : CMasternode) (mnp : CMasternodePing) :
    CMasternodeMan × CMasternode :=
  if mnp.isEmpty then (man.seePing crypto mnp, { pmn with lastPing := mnp })
  else
    let r := mnp.checkAndUpdate crypto env man pmn true
    if r.2.2 then (r.1.seePing crypto mnp, { r.2.1 with lastPing := mnp }) else (r.1, r.2.1)

def CMasternode.updateFromNewBroadcast (man : CMasternodeMan) (pmn : CMasternode)
    (mnb : CMasternodeBroadcast) : CMasternodeMan × CMasternode × Bool :=
  if mnb.sigTime ≤ pmn.sigTime && !mnb.fRecovery then (man, pmn, false)
  else
    let r := (pmn.renewed mnb).takePing crypto env man mnb.lastPing
    let pmn := r.2
    if env.fMasterNode && pmn.pubKeyMasternode = env.activePubKeyMasternode then
      (r.1, { pmn with nPoSeBanScore := -MASTERNODE_POSE_BAN_MAX_SCORE },
        pmn.nProtocolVersion = PROTOCOL_VERSION)
    else (r.1, pmn, true)

namespace CMasternodeBroadcast

def update (man : CMasternodeMan) (pmn : CMasternode) (mnb : CMasternodeBroadcast) :
    CMasternodeMan × CMasternode × Bool :=
  if pmn.sigTime = mnb.sigTime ∧ !mnb.fRecovery then (man, pmn, false)
  else if mnb.sigTime < pmn.sigTime then (man, pmn, false)
  else
    let pmn := pmn.check env man.size false
    if pmn.isPoSeBanned then (man, pmn, false)
    else if pmn.pubKeyCollateralAddress ≠ mnb.pubKeyCollateralAddress then (man, pmn, false)
    else if !mnb.checkSignature crypto then (man, pmn, false)
    else if !pmn.isBroadcastedWithin env MASTERNODE_MIN_MNB_SECONDS ||
        (env.fMasterNode && mnb.pubKeyMasternode = env.activePubKeyMasternode) then
      let r := pmn.updateFromNewBroadcast crypto env man mnb
      (r.1, if r.2.2 then r.2.1.check env r.1.size false else r.2.1, true)
    else (man, pmn, true)

end CMasternodeBroadcast

namespace CMasternodeMan

/-- The seen part of `CheckMnbAndUpdateMasternodeList`: when the peer was asked for the
announcement and its ping is newer, the announcement is kept as a good reply. -/
def seenAgain (man : CMasternodeMan) (pfrom : Option CNetAddr) (mnb : CMasternodeBroadcast)
    (hash : UInt256) (seen : ℤ × CMasternodeBroadcast) : CMasternodeMan :=
  let man :=
    if MASTERNODE_NEW_START_REQUIRED_SECONDS - MASTERNODE_MIN_MNP_SECONDS * 2 <
        env.getTime - seen.1 then
      { man with
        mapSeenMasternodeBroadcast := man.mapSeenMasternodeBroadcast.insert hash
          (env.getTime, seen.2) }
    else man
  match pfrom, man.mMnbRecoveryRequests.lookup hash with
  | some addr, some request =>
    if env.getTime < request.1 ∧ addr ∈ request.2 then
      let man := { man with
        mMnbRecoveryRequests := man.mMnbRecoveryRequests.insert hash
          (request.1, request.2.erase addr) }
      if seen.2.lastPing.sigTime < mnb.lastPing.sigTime ∧
          CMasternode.isValidStateForAutoStart
            (mnb.construct.check env man.size false).nActiveState then
        { man with
          mMnbRecoveryGoodReplies := man.mMnbRecoveryGoodReplies.insert hash
            ((man.mMnbRecoveryGoodReplies.lookup hash).getD [] ++ [mnb]) }
      else man
    else man
  | _, _ => man

def renew (man : CMasternodeMan) (i : ℕ) (pmn : CMasternode) (mnb : CMasternodeBroadcast) :
    CMasternodeMan × Bool :=
  -- `operator[]` makes an entry where there is none
  let hashOld := pmn.toBroadcast.getHash crypto
  let man := man.seeBroadcast hashOld 0 (CMasternodeBroadcast.default env)
  let mnbOld := ((man.mapSeenMasternodeBroadcast.lookup hashOld).elim
    (CMasternodeBroadcast.default env) Prod.snd)
  let r := mnb.update crypto env man pmn
  let man := r.1.put i r.2.1
  if !r.2.2 then (man, false)
  else if mnb.getHash crypto ≠ mnbOld.getHash crypto then (man.forget (mnbOld.getHash crypto), true)
  else (man, true)

/-- The announcement of a masternode that is not in the list. -/
def enlist (man : CMasternodeMan) (mnb : CMasternodeBroadcast) : CMasternodeMan × Bool :=
  match mnb.checkOutpoint crypto env with
  | .later => (man.forget (mnb.getHash crypto), false)
  | .invalid => (man, false)
  | .valid =>
    let man := man.add mnb.toCMasternode
    if env.fMasterNode && mnb.pubKeyMasternode = env.activePubKeyMasternode then
      (man, mnb.nProtocolVersion = PROTOCOL_VERSION)
    else (man, true)

def checkMnbAndUpdateMasternodeList (man : CMasternodeMan) (pfrom : Option CNetAddr)
    (mnb : CMasternodeBroadcast) : CMasternodeMan × Bool :=
  let hash := mnb.getHash crypto
  match mnb.fRecovery, man.mapSeenMasternodeBroadcast.lookup hash with
  | false, some seen => (man.seenAgain env pfrom mnb hash seen, true)
  | _, _ =>
    let man := man.seeBroadcast hash env.getTime mnb
    let r := mnb.simpleCheck crypto env
    if !r.2 then (man, false)
    else
      match man.find r.1.vin with
      | some (i, pmn) => man.renew crypto env i pmn r.1
      | none => man.enlist crypto env r.1

def processAnnounce (man : CMasternodeMan) (pfrom : CNetAddr) (a : MnAnnounce) : CMasternodeMan :=
  if env.fLiteMode || !env.isBlockchainSynced then man
  else
    let man := (man.checkMnbAndUpdateMasternodeList crypto env (some pfrom) a.read).1
    -- `NotifyMasternodeUpdates` resets both flags
    if man.fMasternodesAdded then
      { man with fMasternodesAdded := false, fMasternodesRemoved := false }
    else man

def processPing (man : CMasternodeMan) (mnp : CMasternodePing) : CMasternodeMan :=
  if env.fLiteMode || !env.isBlockchainSynced then man
  else if (man.mapSeenMasternodePing.lookup (mnp.getHash crypto)).isSome then man
  else
    let man := man.seePing crypto mnp
    match man.find mnp.vin with
    | none => man
    | some (i, pmn) =>
      if pmn.isNewStartRequired then man
      else
        let r := mnp.checkAndUpdate crypto env man pmn false
        r.1.put i r.2.1

end CMasternodeMan

end Stonecoin
