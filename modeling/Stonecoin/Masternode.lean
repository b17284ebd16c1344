/-
Masternodes, their announcements and their pings (`masternode.h`, `masternode.cpp`,
`masternode-level.cpp`).

What the rest of the node answers while a message is processed is an environment `ManEnv`
that comes with the message.  Signatures, hashes and texts are the same all the time:
`MasternodeCrypto`.  `cs_main` is held by every caller, so `TRY_LOCK` succeeds.  Times and
heights are integers.  Scores for misbehaving peers are left out, and so are the members that
only payments and mixing use.
-/
import Stonecoin.Coins
import Stonecoin.GovernanceVote

namespace Stonecoin

def MASTERNODE_CHECK_SECONDS : ℤ := 5
def MASTERNODE_MIN_MNB_SECONDS : ℤ := 5 * 60
def MASTERNODE_MIN_MNP_SECONDS : ℤ := 10 * 60
def MASTERNODE_EXPIRATION_SECONDS : ℤ := 65 * 60
def MASTERNODE_NEW_START_REQUIRED_SECONDS : ℤ := 180 * 60
def MASTERNODE_POSE_BAN_MAX_SCORE : ℤ := 5
def PROTOCOL_VERSION : ℤ := 70211

/-! ### Collaterals -/

def COLLATERALS : List ℤ := [1500 * COIN, 3000 * COIN, 4500 * COIN]

def OLD_COLLATERAL_STOP_HEIGHT : ℤ := 9999999
def LEVEL_COLLATERAL_START_HEIGHT : ℤ := 9999999

def isValidMasternode (value height : ℤ) : Bool :=
  if height < LEVEL_COLLATERAL_START_HEIGHT then value = COLLATERALS.getD 0 0
  else
    let startLevel := if OLD_COLLATERAL_STOP_HEIGHT ≤ height then 1 else 0
    (COLLATERALS.drop startLevel).any (· = value)

/-! ### Data -/

structure CService where
  ip : List UInt8
  port : ℕ
deriving DecidableEq

def CTxIn.default : CTxIn := ⟨COutPoint.null, [], 4294967295⟩

structure CMasternodePing where
  vin : CTxIn
  blockHash : UInt256
  sigTime : ℤ
  vchSig : List UInt8
deriving DecidableEq

inductive MasternodeState
  | MASTERNODE_PRE_ENABLED
  | MASTERNODE_ENABLED
  | MASTERNODE_EXPIRED
  | MASTERNODE_OUTPOINT_SPENT
  | MASTERNODE_UPDATE_REQUIRED
  | MASTERNODE_WATCHDOG_EXPIRED
  | MASTERNODE_NEW_START_REQUIRED
  | MASTERNODE_POSE_BAN
deriving DecidableEq

open MasternodeState

structure CMasternode where
  vin : CTxIn
  addr : CService
  pubKeyCollateralAddress : CPubKey
  pubKeyMasternode : CPubKey
  lastPing : CMasternodePing
  vchSig : List UInt8
  sigTime : ℤ
  nTimeLastChecked : ℤ
  nActiveState : MasternodeState
  nProtocolVersion : ℤ
  nPoSeBanScore : ℤ
  nPoSeBanHeight : ℤ
deriving DecidableEq

structure CMasternodeBroadcast extends CMasternode where
  fRecovery : Bool
deriving DecidableEq

/-- What the message of an announcement holds. -/
structure MnAnnounce where
  vin : CTxIn
  addr : CService
  pubKeyCollateralAddress : CPubKey
  pubKeyMasternode : CPubKey
  vchSig : List UInt8
  sigTime : ℤ
  nProtocolVersion : ℤ
  lastPing : CMasternodePing
deriving DecidableEq

def MnAnnounce.read (a : MnAnnounce) : CMasternodeBroadcast where
  vin := a.vin
  addr := a.addr
  pubKeyCollateralAddress := a.pubKeyCollateralAddress
  pubKeyMasternode := a.pubKeyMasternode
  lastPing := a.lastPing
  vchSig := a.vchSig
  sigTime := a.sigTime
  nTimeLastChecked := 0
  nActiveState := MASTERNODE_ENABLED
  nProtocolVersion := a.nProtocolVersion
  nPoSeBanScore := 0
  nPoSeBanHeight := 0
  fRecovery := false

def CMasternode.toBroadcast (mn : CMasternode) : CMasternodeBroadcast := { mn with fRecovery := false }

def CMasternodeBroadcast.construct (mnb : CMasternodeBroadcast) : CMasternode :=
  { mnb.toCMasternode with
    nTimeLastChecked := 0
    nPoSeBanScore := 0
    nPoSeBanHeight := 0 }

/-! ### The environment -/

/-- Signatures, hashes and texts. -/
structure MasternodeCrypto where
  /-- `darkSendSigner.VerifyMessage`. -/
  verifyMessage : CPubKey → List UInt8 → String → Bool
  /-- `CPubKey::GetID`. -/
  getID : CPubKey → UInt160
  /-- `addr.ToString(false)`. -/
  addrToString : CService → String
  /-- `CKeyID::ToString`. -/
  idToString : UInt160 → String
  /-- `uint256::ToString`. -/
  hashToString : UInt256 → String
  /-- `CTxIn::ToString`. -/
  txInToString : CTxIn → String
  /-- `COutPoint::ToStringShort`. -/
  outPointToString : COutPoint → String
  /-- The hash of an outpoint, a collateral key and a time. -/
  hashBroadcast : CTxIn → CPubKey → ℤ → UInt256
  /-- The hash of an outpoint and a time. -/
  hashPing : CTxIn → ℤ → UInt256
  /-- The hash of a verification, without its signatures. -/
  hashVerification : CTxIn → CTxIn → CService → ℤ → ℤ → UInt256

/-- What the rest of the node answers to `CMasternodeMan`. -/
structure ManEnv where
  fLiteMode : Bool
  isBlockchainSynced : Bool
  isMasternodeListSynced : Bool
  isSynced : Bool
  shutdownRequested : Bool
  getTime : ℤ
  getAdjustedTime : ℤ
  fMasterNode : Bool
  /-- `activeMasternode.pubKeyMasternode` and `activeMasternode.vin`. -/
  activePubKeyMasternode : CPubKey
  activeVin : CTxIn
  /-- `mnpayments.GetMinMasternodePaymentsProto()`. -/
  minPaymentsProto : ℤ
  /-- `Params()`: the network, the port of the main one, and the confirmations. -/
  networkIsMain : Bool
  mainnetDefaultPort : ℕ
  nMasternodeMinimumConfirmations : ℤ
  /-- `CMasternode::IsValidNetAddr`. -/
  isValidNetAddr : CService → Bool
  /-- `pcoinsTip->GetCoins`. -/
  getCoins : UInt256 → Option CCoins
  /-- `chainActive.Height()`. -/
  height : ℤ
  /-- `GetTransaction`, with the hash of the block. -/
  getTransaction : UInt256 → Option (CTransaction × UInt256)
  /-- `mapBlockIndex`, with the heights. -/
  mapBlockIndex : UInt256 → Option ℤ
  /-- `chainActive[nHeight]->GetBlockTime()`. -/
  blockTime : ℤ → ℤ

variable (crypto : MasternodeCrypto) (env : ManEnv)

/-! ### Pings -/

namespace CMasternodePing

def empty : CMasternodePing := ⟨CTxIn.default, 0, 0, []⟩

def eq (a b : CMasternodePing) : Bool := a.vin = b.vin ∧ a.blockHash = b.blockHash

def isEmpty (mnp : CMasternodePing) : Bool := mnp.eq empty

def getHash (mnp : CMasternodePing) : UInt256 := crypto.hashPing mnp.vin mnp.sigTime

def isExpired (mnp : CMasternodePing) : Bool :=
  MASTERNODE_NEW_START_REQUIRED_SECONDS < env.getTime - mnp.sigTime

def checkSignature (pubKeyMasternode : CPubKey) (mnp : CMasternodePing) : Bool :=
  crypto.verifyMessage pubKeyMasternode mnp.vchSig
    (crypto.txInToString mnp.vin ++ crypto.hashToString mnp.blockHash ++ toString mnp.sigTime)

def simpleCheck (mnp : CMasternodePing) : Bool :=
  if env.getAdjustedTime + 60 * 60 < mnp.sigTime then false
  else (env.mapBlockIndex mnp.blockHash).isSome

end CMasternodePing

/-! ### Masternodes -/

namespace CMasternode

def isBroadcastedWithin (mn : CMasternode) (nSeconds : ℤ) : Bool :=
  env.getAdjustedTime - mn.sigTime < nSeconds

def isPingedWithin (mn : CMasternode) (nSeconds nTimeToCheckAt : ℤ) : Bool :=
  if mn.lastPing.isEmpty then false
  else
    let nTimeToCheckAt := if nTimeToCheckAt = -1 then env.getAdjustedTime else nTimeToCheckAt
    nTimeToCheckAt - mn.lastPing.sigTime < nSeconds

def isEnabled (mn : CMasternode) : Bool := mn.nActiveState = MASTERNODE_ENABLED
def isPoSeBanned (mn : CMasternode) : Bool := mn.nActiveState = MASTERNODE_POSE_BAN
def isPoSeVerified (mn : CMasternode) : Bool := mn.nPoSeBanScore ≤ -MASTERNODE_POSE_BAN_MAX_SCORE
def isExpired (mn : CMasternode) : Bool := mn.nActiveState = MASTERNODE_EXPIRED
def isOutpointSpent (mn : CMasternode) : Bool := mn.nActiveState = MASTERNODE_OUTPOINT_SPENT
def isUpdateRequired (mn : CMasternode) : Bool := mn.nActiveState = MASTERNODE_UPDATE_REQUIRED
def isWatchdogExpired (mn : CMasternode) : Bool := mn.nActiveState = MASTERNODE_WATCHDOG_EXPIRED
def isNewStartRequired (mn : CMasternode) : Bool :=
  mn.nActiveState = MASTERNODE_NEW_START_REQUIRED

def isValidStateForAutoStart (nActiveStateIn : MasternodeState) : Bool :=
  nActiveStateIn = MASTERNODE_ENABLED ∨ nActiveStateIn = MASTERNODE_PRE_ENABLED ∨
    nActiveStateIn = MASTERNODE_EXPIRED ∨ nActiveStateIn = MASTERNODE_WATCHDOG_EXPIRED

/-- `IsValidForPayment`; the flag is `SPORK_14_REQUIRE_SENTINEL_FLAG`. -/
def isValidForPayment (spork14 : Bool) (mn : CMasternode) : Bool :=
  if mn.nActiveState = MASTERNODE_ENABLED then true
  else !spork14 && mn.nActiveState = MASTERNODE_WATCHDOG_EXPIRED

def increasePoSeBanScore (mn : CMasternode) : CMasternode :=
  if mn.nPoSeBanScore < MASTERNODE_POSE_BAN_MAX_SCORE then
    { mn with nPoSeBanScore := mn.nPoSeBanScore + 1 }
  else mn

def decreasePoSeBanScore (mn : CMasternode) : CMasternode :=
  if -MASTERNODE_POSE_BAN_MAX_SCORE < mn.nPoSeBanScore then
    { mn with nPoSeBanScore := mn.nPoSeBanScore - 1 }
  else mn

/-- The output is not among the coins. -/
def collateralSpent (out : COutPoint) : Bool :=
  match env.getCoins out.hash with
  | none => true
  | some coins => !coins.isAvailable out.n

/-- The state for a masternode that is neither spent nor banned. -/
def checkState (mn : CMasternode) : MasternodeState :=
  let fOurMasternode := env.fMasterNode && env.activePubKeyMasternode = mn.pubKeyMasternode
  let fRequireUpdate := decide (mn.nProtocolVersion < env.minPaymentsProto) ||
    (fOurMasternode && mn.nProtocolVersion < PROTOCOL_VERSION)
  let fWaitForPing := !env.isMasternodeListSynced &&
    !mn.isPingedWithin env MASTERNODE_MIN_MNP_SECONDS (-1)
  if fRequireUpdate then MASTERNODE_UPDATE_REQUIRED
  else if fWaitForPing && !fOurMasternode &&
      (mn.isExpired || mn.isWatchdogExpired || mn.isNewStartRequired) then mn.nActiveState
  else if (!fWaitForPing || fOurMasternode) &&
      !mn.isPingedWithin env MASTERNODE_NEW_START_REQUIRED_SECONDS (-1) then
    MASTERNODE_NEW_START_REQUIRED
  -- `IsWatchdogActive` returns false
  else if (!fWaitForPing || fOurMasternode) &&
      !mn.isPingedWithin env MASTERNODE_EXPIRATION_SECONDS (-1) then MASTERNODE_EXPIRED
  else if mn.lastPing.sigTime - mn.sigTime < MASTERNODE_MIN_MNP_SECONDS then
    MASTERNODE_PRE_ENABLED
  else MASTERNODE_ENABLED

def check (size : ℕ) (fForce : Bool) (mn : CMasternode) : CMasternode :=
  if env.shutdownRequested then mn
  else if !fForce && env.getTime - mn.nTimeLastChecked < MASTERNODE_CHECK_SECONDS then mn
  else
    let mn := { mn with nTimeLastChecked := env.getTime }
    if mn.isOutpointSpent then mn
    else if collateralSpent env mn.vin.prevout then
      { mn with nActiveState := MASTERNODE_OUTPOINT_SPENT }
    else if mn.isPoSeBanned then
      if env.height < mn.nPoSeBanHeight then mn
      else
        let mn := mn.decreasePoSeBanScore
        { mn with nActiveState := mn.checkState env }
    else if MASTERNODE_POSE_BAN_MAX_SCORE ≤ mn.nPoSeBanScore then
      { mn with nActiveState := MASTERNODE_POSE_BAN, nPoSeBanHeight := env.height + size }
    else { mn with nActiveState := mn.checkState env }

end CMasternode

/-! ### Announcements -/

/-- A masternode after checks and changes of its score. -/
structure CMasternode.Upkeep (mn mn' : CMasternode) : Prop where
  vin : mn'.vin = mn.vin
  addr : mn'.addr = mn.addr
  pubKeyCollateralAddress : mn'.pubKeyCollateralAddress = mn.pubKeyCollateralAddress
  pubKeyMasternode : mn'.pubKeyMasternode = mn.pubKeyMasternode
  lastPing : mn'.lastPing = mn.lastPing
  vchSig : mn'.vchSig = mn.vchSig
  sigTime : mn'.sigTime = mn.sigTime
  nProtocolVersion : mn'.nProtocolVersion = mn.nProtocolVersion

namespace CMasternode

variable {env} {mn mn' mn'' : CMasternode}

theorem Upkeep.refl (mn : CMasternode) : mn.Upkeep mn := ⟨rfl, rfl, rfl, rfl, rfl, rfl, rfl, rfl⟩

theorem Upkeep.trans (h : mn.Upkeep mn') (h' : mn'.Upkeep mn'') : mn.Upkeep mn'' :=
  ⟨h'.vin.trans h.vin, h'.addr.trans h.addr,
    h'.pubKeyCollateralAddress.trans h.pubKeyCollateralAddress,
    h'.pubKeyMasternode.trans h.pubKeyMasternode, h'.lastPing.trans h.lastPing,
    h'.vchSig.trans h.vchSig, h'.sigTime.trans h.sigTime, h'.nProtocolVersion.trans h.nProtocolVersion⟩

theorem Upkeep.symm (h : mn.Upkeep mn') : mn'.Upkeep mn :=
  ⟨h.vin.symm, h.addr.symm, h.pubKeyCollateralAddress.symm, h.pubKeyMasternode.symm,
    h.lastPing.symm, h.vchSig.symm, h.sigTime.symm, h.nProtocolVersion.symm⟩

theorem decreasePoSeBanScore_upkeep (mn : CMasternode) : mn.Upkeep mn.decreasePoSeBanScore := by
  rw [decreasePoSeBanScore]
  split_ifs
  · exact ⟨rfl, rfl, rfl, rfl, rfl, rfl, rfl, rfl⟩
  · exact .refl mn

theorem check_upkeep (size : ℕ) (fForce : Bool) (mn : CMasternode) :
    mn.Upkeep (mn.check env size fForce) := by
  -- an unbanned masternode has its score decreased before its state is found
  have hscore := decreasePoSeBanScore_upkeep { mn with nTimeLastChecked := env.getTime }
  simp only [check]
  split_ifs
  · exact .refl mn
  · exact .refl mn
  · exact ⟨rfl, rfl, rfl, rfl, rfl, rfl, rfl, rfl⟩
  · exact ⟨rfl, rfl, rfl, rfl, rfl, rfl, rfl, rfl⟩
  · exact ⟨rfl, rfl, rfl, rfl, rfl, rfl, rfl, rfl⟩
  · exact ⟨hscore.vin, hscore.addr, hscore.pubKeyCollateralAddress, hscore.pubKeyMasternode,
      hscore.lastPing, hscore.vchSig, hscore.sigTime, hscore.nProtocolVersion⟩
  · exact ⟨rfl, rfl, rfl, rfl, rfl, rfl, rfl, rfl⟩
  · exact ⟨rfl, rfl, rfl, rfl, rfl, rfl, rfl, rfl⟩

end CMasternode

namespace CMasternodeBroadcast

def getHash (mnb : CMasternodeBroadcast) : UInt256 :=
  crypto.hashBroadcast mnb.vin mnb.pubKeyCollateralAddress mnb.sigTime

def checkSignature (mnb : CMasternodeBroadcast) : Bool :=
  crypto.verifyMessage mnb.pubKeyCollateralAddress mnb.vchSig
    (crypto.addrToString mnb.addr ++ toString mnb.sigTime ++
      crypto.idToString (crypto.getID mnb.pubKeyCollateralAddress) ++
      crypto.idToString (crypto.getID mnb.pubKeyMasternode) ++ toString mnb.nProtocolVersion)

/-- An announcement with no good ping counts as expired. -/
def marked (mnb : CMasternodeBroadcast) : CMasternodeBroadcast :=
  if mnb.lastPing.isEmpty || !mnb.lastPing.simpleCheck env then
    { mnb with nActiveState := MASTERNODE_EXPIRED }
  else mnb

def simpleCheck (mnb : CMasternodeBroadcast) : CMasternodeBroadcast × Bool :=
  if !env.isValidNetAddr mnb.addr then (mnb, false)
  else if env.getAdjustedTime + 60 * 60 < mnb.sigTime then (mnb, false)
  else
    let mnb := mnb.marked env
    if mnb.nProtocolVersion < env.minPaymentsProto then (mnb, false)
    else if (getScriptForDestination (.keyID (crypto.getID mnb.pubKeyCollateralAddress))).length ≠ 25
    then (mnb, false)
    else if (getScriptForDestination (.keyID (crypto.getID mnb.pubKeyMasternode))).length ≠ 25
    then (mnb, false)
    else if !mnb.vin.scriptSig.isEmpty then (mnb, false)
    else if env.networkIsMain then (mnb, mnb.addr.port = env.mainnetDefaultPort)
    else (mnb, mnb.addr.port ≠ env.mainnetDefaultPort)

def isVinAssociatedWithPubkey (txin : CTxIn) (pubkey : CPubKey) : Bool :=
  let payee := getScriptForDestination (.keyID (crypto.getID pubkey))
  match env.getTransaction txin.prevout.hash with
  | none => false
  | some (tx, _) => tx.vout.any fun out =>
      isValidMasternode out.nValue env.height && out.scriptPubKey = payee

inductive OutpointCheck
  | valid
  | invalid
  /-- The announcement may be checked again later: it is taken from those seen. -/
  | later
deriving DecidableEq

def checkOutpoint (mnb : CMasternodeBroadcast) : OutpointCheck :=
  if env.fMasterNode && mnb.vin.prevout = env.activeVin.prevout &&
      mnb.pubKeyMasternode = env.activePubKeyMasternode then .invalid
  else if !mnb.checkSignature crypto then .invalid
  else
    match env.getCoins mnb.vin.prevout.hash with
    | none => .invalid
    | some coins =>
      if !coins.isAvailable mnb.vin.prevout.n then .invalid
      else if !isValidMasternode ((coins.vout[mnb.vin.prevout.n]?).elim 0 (·.nValue)) env.height then
        .invalid
      else if env.height - coins.nHeight + 1 < env.nMasternodeMinimumConfirmations then .later
      else if !isVinAssociatedWithPubkey crypto env mnb.vin mnb.pubKeyCollateralAddress then .invalid
      else
        match (env.getTransaction mnb.vin.prevout.hash).bind fun r => env.mapBlockIndex r.2 with
        | none => .valid
        | some nHeight =>
          if mnb.sigTime < env.blockTime (nHeight + env.nMasternodeMinimumConfirmations - 1) then
            .invalid
          else .valid

end CMasternodeBroadcast

end Stonecoin
