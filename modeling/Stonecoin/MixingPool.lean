/-
The pool of a masternode (`CDarksendPool` of `darksend.cpp` with `fMasterNode` set): the
messages DSACCEPT, DSVIN and DSSIGNFINALTX, the timer and `CheckPool`.

`AcceptToMemoryPool` is run dry: `CheckTransaction` is its first step, the rest of it is a
parameter.  The interpreter of scripts is a parameter, too; `MutableTransactionSignatureChecker`
reads of a transaction what `CMutableTransaction.view` keeps.
-/
import Stonecoin.Darksend
import Stonecoin.GovernanceVote

namespace Stonecoin

open PoolState

inductive PoolMessage
  | ERR_ALREADY_HAVE
  | ERR_DENOM
  | ERR_ENTRIES_FULL
  | ERR_EXISTING_TX
  | ERR_FEES
  | ERR_INVALID_COLLATERAL
  | ERR_INVALID_INPUT
  | ERR_INVALID_SCRIPT
  | ERR_INVALID_TX
  | ERR_MAXIMUM
  | ERR_MN_LIST
  | ERR_MODE
  | ERR_NON_STANDARD_PUBKEY
  | ERR_NOT_A_MN
  | ERR_QUEUE_FULL
  | ERR_RECENT
  | ERR_SESSION
  | ERR_MISSING_TX
  | ERR_VERSION
  | MSG_NOERR
  | MSG_SUCCESS
  | MSG_ENTRIES_ADDED
deriving DecidableEq

open PoolMessage

/-- What `PushStatus` sends: whether the status is `STATUS_ACCEPTED`, and the message. -/
structure PoolStatus where
  fAccepted : Bool
  nMessageID : PoolMessage
deriving DecidableEq

/-- What a signature checker reads of a transaction and an input: all but the `scriptSig`s. -/
structure CheckerView where
  nVersion : ℤ
  vin : List (COutPoint × ℕ)
  vout : List (ℤ × CScript)
  nLockTime : ℕ
  nIn : ℕ
deriving DecidableEq

def CMutableTransaction.view (tx : CMutableTransaction) (nIn : ℕ) : CheckerView where
  nVersion := tx.nVersion
  vin := tx.vin.map fun txin => (txin.prevout, txin.nSequence)
  vout := tx.vout.map fun txout => (txout.nValue, txout.scriptPubKey)
  nLockTime := tx.nLockTime
  nIn := nIn

/-- What is fixed for a node. -/
structure MixParams where
  /-- `GetMaxPoolTransactions()`. -/
  nPoolMaxTransactions : ℕ
  /-- `CTransaction(tx).GetHash()`. -/
  getHash : CMutableTransaction → UInt256
  isNormalPaymentScript : CScript → Bool
  /-- `EvalScript` with `SCRIPT_VERIFY_P2SH | SCRIPT_VERIFY_STRICTENC`; `none` is an error. -/
  evalScript : List (List UInt8) → CScript → CheckerView → Option (List (List UInt8))

/-- What an event depends on. -/
structure MixEnv where
  fLiteMode : Bool
  isBlockchainSynced : Bool
  /-- `pfrom->nVersion`. -/
  nVersion : ℤ
  /-- The node finds itself in the list of masternodes. -/
  pmn : Bool
  /-- Its last queue is too recent for a new one. -/
  lastDsqTooRecent : Bool
  getTransaction : UInt256 → Option CTransaction
  /-- `AcceptToMemoryPool` after `CheckTransaction`. -/
  acceptable : CTransaction → Bool
  /-- `GetRandInt(999999)`. -/
  getRandInt : ℕ
  getTimeMillis : ℤ

def CMutableTransaction.toTransaction (params : MixParams) (tx : CMutableTransaction) :
    CTransaction :=
  ⟨params.getHash tx, tx.nVersion, tx.vin, tx.vout, tx.nLockTime⟩

structure SentEntry where
  vecTxDSIn : List CTxIn
  vecTxDSOut : List CTxOut
  txCollateral : CTransaction

def SentEntry.read (entry : SentEntry) : CDarkSendEntry :=
  ⟨entry.vecTxDSIn.map CTxDSIn.read, entry.vecTxDSOut, entry.txCollateral⟩

variable (params : MixParams) (env : MixEnv)

namespace MixEnv

def acceptToMemoryPool (tx : CTransaction) : Bool :=
  match checkTransaction tx with
  | .error _ => false
  | .ok () => env.acceptable tx

def inputValue (txin : CTxIn) : ℤ :=
  ((env.getTransaction txin.prevout.hash).bind fun txPrev => txPrev.vout[txin.prevout.n]?).elim 0
    CTxOut.nValue

end MixEnv

def isCollateralValid (txCollateral : CTransaction) : Bool :=
  if txCollateral.vout.isEmpty then false
  else if txCollateral.nLockTime ≠ 0 then false
  else if txCollateral.vout.any fun txout => !params.isNormalPaymentScript txout.scriptPubKey then
    false
  else if txCollateral.vin.any fun txin => (env.getTransaction txin.prevout.hash).isNone then false
  else if (txCollateral.vin.map env.inputValue).sum - (txCollateral.vout.map CTxOut.nValue).sum <
      PRIVATESEND_COLLATERAL then false
  else env.acceptToMemoryPool txCollateral

/-- The outputs of DSVIN; `some` is the message of a rejection. -/
def outputError : List CTxOut → Option PoolMessage
  | [] => none
  | txout :: vecTxDSOut =>
    if txout.scriptPubKey.length ≠ 25 then some ERR_NON_STANDARD_PUBKEY
    else if !params.isNormalPaymentScript txout.scriptPubKey then some ERR_INVALID_SCRIPT
    else outputError vecTxDSOut

/-- DSVIN checks the entry like a transaction. -/
def entryError (entry : SentEntry) : Option PoolMessage :=
  let nValueIn := (entry.vecTxDSIn.map env.inputValue).sum
  let nValueOut := (entry.vecTxDSOut.map CTxOut.nValue).sum
  let tx : CMutableTransaction :=
    { CMutableTransaction.empty with vin := entry.vecTxDSIn, vout := entry.vecTxDSOut }
  match outputError params entry.vecTxDSOut with
  | some nMessageID => some nMessageID
  | none =>
    if entry.vecTxDSIn.any fun txin => (env.getTransaction txin.prevout.hash).isNone then
      some ERR_MISSING_TX
    else if PRIVATESEND_POOL_MAX < nValueIn then some ERR_MAXIMUM
    else if vecPrivateSendDenominations.getLastD 0 < nValueIn - nValueOut then some ERR_FEES
    else if !env.acceptToMemoryPool (tx.toTransaction params) then some ERR_INVALID_TX
    else none

/-! ### Scripts -/

/-- The script has run, and has left a true value. -/
def leavesTrue (stack : List (List UInt8)) : Bool := stack.head?.any castToBool

/-- `VerifyScript` with `SCRIPT_VERIFY_P2SH | SCRIPT_VERIFY_STRICTENC`.  The top of the stack
comes first. -/
def verifyScript (scriptSig scriptPubKey : CScript) (checker : CheckerView) : Bool :=
  match params.evalScript [] scriptSig checker with
  | none => false
  | some stackCopy =>
    match params.evalScript stackCopy scriptPubKey checker with
    | none => false
    | some stack =>
      if !leavesTrue stack then false
      else if isPayToScriptHash scriptPubKey then
        if !isPushOnly scriptSig then false
        else
          match stackCopy with
          | [] => false
          | pubKey2 :: stack => (params.evalScript stack pubKey2 checker).any leavesTrue
      else true

/-! ### The final transaction -/

/-- `operator<` of `prevector`: shorter scripts come first. -/
def CScript.lt (a b : CScript) : Bool :=
  a.length < b.length || (a.length = b.length && decide (a < b))

def CTxOut.lt (a b : CTxOut) : Bool :=
  a.nValue < b.nValue || (a.nValue = b.nValue && CScript.lt a.scriptPubKey b.scriptPubKey)

namespace CDarkSendEntry

def addScriptSigLoop (txin : CTxIn) : List CTxDSIn → Option (List CTxDSIn)
  | [] => none
  | txdsin :: vecTxDSIn =>
    if txdsin.prevout = txin.prevout ∧ txdsin.nSequence = txin.nSequence then
      if txdsin.fHasSig then none
      else some ({ txdsin with
        scriptSig := txin.scriptSig
        prevPubKey := []
        fHasSig := true } :: vecTxDSIn)
    else (addScriptSigLoop txin vecTxDSIn).map (txdsin :: ·)

def addScriptSig (txin : CTxIn) (entry : CDarkSendEntry) : Option CDarkSendEntry :=
  (addScriptSigLoop txin entry.vecTxDSIn).map fun vecTxDSIn => { entry with vecTxDSIn := vecTxDSIn }

/-- The first entry that takes the signature. -/
def addToEntries (txin : CTxIn) : List CDarkSendEntry → Option (List CDarkSendEntry)
  | [] => none
  | entry :: vecEntries =>
    match entry.addScriptSig txin with
    | some entry => some (entry :: vecEntries)
    | none => (addToEntries txin vecEntries).map (entry :: ·)

end CDarkSendEntry

namespace CDarksendPool

variable (pool : CDarksendPool)

def inputs : List CTxDSIn := pool.vecEntries.flatMap CDarkSendEntry.vecTxDSIn

def outputs : List CTxOut := pool.vecEntries.flatMap CDarkSendEntry.vecTxDSOut

/-- The transaction of all entries, in the order in which they came. -/
def joined : CMutableTransaction :=
  { CMutableTransaction.empty with vin := pool.inputs.map CTxDSIn.toCTxIn, vout := pool.outputs }

/-! ### Sessions -/

def isSessionReady : Bool := params.nPoolMaxTransactions ≤ pool.vecSessionCollaterals.length

def denomAndCollateralError (nDenom : ℤ) (txCollateral : CTransaction) : Option PoolMessage :=
  if (getDenominationsBits nDenom).isNone then some ERR_DENOM
  else if !isCollateralValid params env txCollateral then some ERR_INVALID_COLLATERAL
  else none

def createNewSession (nDenom : ℤ) (txCollateral : CTransaction) :
    Except PoolMessage CDarksendPool :=
  if pool.nSessionID ≠ 0 then .error MSG_NOERR
  else if pool.nState ≠ POOL_STATE_IDLE then .error ERR_MODE
  else
    match denomAndCollateralError params env nDenom txCollateral with
    | some nMessageID => .error nMessageID
    | none =>
      .ok { pool with
        nSessionID := env.getRandInt + 1
        nSessionDenom := nDenom
        nState := POOL_STATE_QUEUE
        nTimeLastSuccessfulStep := env.getTimeMillis
        vecSessionCollaterals := pool.vecSessionCollaterals ++ [txCollateral] }

def addUserToExistingSession (nDenom : ℤ) (txCollateral : CTransaction) :
    Except PoolMessage CDarksendPool :=
  if pool.nSessionID = 0 ∨ pool.isSessionReady params then .error MSG_NOERR
  else
    match denomAndCollateralError params env nDenom txCollateral with
    | some nMessageID => .error nMessageID
    | none =>
      if pool.nState ≠ POOL_STATE_QUEUE then .error ERR_MODE
      else if nDenom ≠ pool.nSessionDenom then .error ERR_DENOM
      else
        .ok { pool with
          nTimeLastSuccessfulStep := env.getTimeMillis
          vecSessionCollaterals := pool.vecSessionCollaterals ++ [txCollateral] }

/-- DSACCEPT. -/
def processDsAccept (nDenom : ℤ) (txCollateral : CTransaction) : CDarksendPool × PoolStatus :=
  if env.nVersion < MIN_PRIVATESEND_PEER_PROTO_VERSION then (pool, ⟨false, ERR_VERSION⟩)
  else if pool.isSessionReady params then (pool, ⟨true, ERR_QUEUE_FULL⟩)
  else if !env.pmn then (pool, ⟨false, ERR_MN_LIST⟩)
  else if pool.vecSessionCollaterals.isEmpty && env.lastDsqTooRecent then
    (pool, ⟨false, ERR_RECENT⟩)
  else
    match if pool.nSessionID = 0 then pool.createNewSession params env nDenom txCollateral
      else pool.addUserToExistingSession params env nDenom txCollateral with
    | .ok pool => (pool, ⟨true, MSG_NOERR⟩)
    | .error nMessageID => (pool, ⟨false, nMessageID⟩)

/-! ### Signatures -/

/-- The last input of an entry with the outpoint, and its place among all inputs. -/
def inputAt (prevout : COutPoint) : Option (CTxDSIn × ℕ) :=
  pool.inputs.zipIdx.foldl (fun r p => if p.1.prevout = prevout then some p else r) none

def isInputScriptSigValid (txin : CTxIn) : Bool :=
  match pool.inputAt txin.prevout with
  | none => false
  | some (txdsin, nTxInIndex) =>
    -- the new `scriptSig` is put into the transaction, where no checker reads it
    verifyScript params txin.scriptSig txdsin.prevPubKey (pool.joined.view nTxInIndex)

def hasScriptSig (scriptSig : CScript) : Bool :=
  pool.inputs.any fun txdsin => txdsin.scriptSig = scriptSig

/-- The signature is put into `finalMutableTransaction`. -/
def signFinal (txinNew : CTxIn) : CDarksendPool :=
  { pool with
    finalMutableTransaction :=
      { pool.finalMutableTransaction with
        vin := pool.finalMutableTransaction.vin.map fun txin =>
          if txinNew.prevout = txin.prevout ∧ txin.nSequence = txinNew.nSequence then
            { txin with scriptSig := txinNew.scriptSig }
          else txin } }

def addScriptSig (txinNew : CTxIn) : CDarksendPool × Bool :=
  if pool.hasScriptSig txinNew.scriptSig then (pool, false)
  else if !pool.isInputScriptSigValid params txinNew then (pool, false)
  else
    match CDarkSendEntry.addToEntries txinNew pool.vecEntries with
    | some vecEntries => ({ pool.signFinal txinNew with vecEntries := vecEntries }, true)
    | none => (pool.signFinal txinNew, false)

def isSignaturesComplete : Bool := pool.inputs.all CTxDSIn.fHasSig

def createFinalTransaction : CDarksendPool :=
  { pool with
    finalMutableTransaction :=
      { pool.joined with
        vin := pool.joined.vin.mergeSort fun a b => !b.lt a
        vout := pool.joined.vout.mergeSort fun a b => !b.lt a }
    nState := POOL_STATE_SIGNING }

/-- `CheckPool`.  `CommitFinalTransaction` resets the pool in any case. -/
def checkPool : CDarksendPool :=
  if pool.nState = POOL_STATE_ACCEPTING_ENTRIES ∧
      params.nPoolMaxTransactions ≤ pool.vecEntries.length then pool.createFinalTransaction
  else if pool.nState = POOL_STATE_SIGNING ∧ pool.isSignaturesComplete then
    pool.setNull env.getTimeMillis
  else if (pool.nState = POOL_STATE_ERROR ∨ pool.nState = POOL_STATE_SUCCESS) ∧
      10000 ≤ env.getTimeMillis - pool.nTimeLastSuccessfulStep then pool.setNull env.getTimeMillis
  else pool

/-- The loop of DSSIGNFINALTX, and whether all signatures were added. -/
def addScriptSigs : CDarksendPool → List CTxIn → CDarksendPool × Bool
  | pool, [] => (pool, true)
  | pool, txin :: vecTxIn =>
    let r := pool.addScriptSig params txin
    if r.2 then addScriptSigs r.1 vecTxIn else (r.1, false)

/-- DSSIGNFINALTX. -/
def processDsSignFinalTx (vecTxIn : List CTxIn) : CDarksendPool :=
  if env.nVersion < MIN_PRIVATESEND_PEER_PROTO_VERSION then pool
  else
    let r := pool.addScriptSigs params vecTxIn
    if r.2 then r.1.checkPool params env else r.1

/-! ### Entries -/

def isOutputsCompatibleWithSessionDenom (vecTxDSOut : List CTxOut) : Bool :=
  if getDenominations vecTxDSOut = 0 then false
  else pool.vecEntries.all fun entry =>
    getDenominations vecTxDSOut = getDenominations entry.vecTxDSOut

def addEntryError (entryNew : SentEntry) : Option PoolMessage :=
  if entryNew.vecTxDSIn.any fun txin => txin.prevout.isNull then some ERR_INVALID_INPUT
  else if !isCollateralValid params env entryNew.txCollateral then some ERR_INVALID_COLLATERAL
  else if params.nPoolMaxTransactions ≤ pool.vecEntries.length then some ERR_ENTRIES_FULL
  else if entryNew.vecTxDSIn.any fun txin =>
      pool.inputs.any fun txdsin => txdsin.prevout = txin.prevout then some ERR_ALREADY_HAVE
  else none

def pushEntry (entryNew : SentEntry) : CDarksendPool :=
  { pool with
    vecEntries := pool.vecEntries ++ [entryNew.read]
    nTimeLastSuccessfulStep := env.getTimeMillis }

/-- What DSVIN looks at before `AddEntry`. -/
def dsVinError (entry : SentEntry) : Option PoolMessage :=
  if env.nVersion < MIN_PRIVATESEND_PEER_PROTO_VERSION then some ERR_VERSION
  else if !pool.isSessionReady params then some ERR_SESSION
  else if !pool.isOutputsCompatibleWithSessionDenom entry.vecTxDSOut then some ERR_EXISTING_TX
  else entryError params env entry

/-- DSVIN.  An entry that `AddEntry` refuses resets the pool. -/
def processDsVin (entry : SentEntry) : CDarksendPool × PoolStatus :=
  match pool.dsVinError params env entry with
  | some nMessageID => (pool, ⟨false, nMessageID⟩)
  | none =>
    match pool.addEntryError params env entry with
    | some nMessageID => (pool.setNull env.getTimeMillis, ⟨false, nMessageID⟩)
    | none => ((pool.pushEntry env entry).checkPool params env, ⟨true, MSG_ENTRIES_ADDED⟩)

/-! ### The timer -/

/-- `CheckTimeout`.  A masternode does not go to `POOL_STATE_ERROR`. -/
def checkTimeout : CDarksendPool :=
  let nTimeout := if pool.nState = POOL_STATE_SIGNING then PRIVATESEND_SIGNING_TIMEOUT
    else PRIVATESEND_QUEUE_TIMEOUT
  if pool.nState ≠ POOL_STATE_IDLE ∧
      nTimeout * 1000 ≤ env.getTimeMillis - pool.nTimeLastSuccessfulStep then
    pool.setNull env.getTimeMillis
  else pool

def checkForCompleteQueue : CDarksendPool :=
  if pool.nState = POOL_STATE_QUEUE ∧ pool.isSessionReady params then
    { pool with nState := POOL_STATE_ACCEPTING_ENTRIES }
  else pool

end CDarksendPool

/-! ### Events -/

/-- What happens to the pool. -/
inductive MixEvent
  | dsAccept (nDenom : ℤ) (txCollateral : CTransaction)
  | dsVin (entry : SentEntry)
  | dsSignFinalTx (vecTxIn : List CTxIn)
  | checkTimeout
  | checkForCompleteQueue
  | checkPool
  | resetPool

def CDarksendPool.step (pool : CDarksendPool) (e : MixEnv × MixEvent) : CDarksendPool :=
  match e.2 with
  | .dsAccept nDenom txCollateral =>
    if e.1.fLiteMode || !e.1.isBlockchainSynced then pool
    else (pool.processDsAccept params e.1 nDenom txCollateral).1
  | .dsVin entry =>
    if e.1.fLiteMode || !e.1.isBlockchainSynced then pool
    else (pool.processDsVin params e.1 entry).1
  | .dsSignFinalTx vecTxIn =>
    if e.1.fLiteMode || !e.1.isBlockchainSynced then pool
    else pool.processDsSignFinalTx params e.1 vecTxIn
  | .checkTimeout => pool.checkTimeout e.1
  | .checkForCompleteQueue => pool.checkForCompleteQueue params
  | .checkPool => pool.checkPool params e.1
  | .resetPool => pool.setNull e.1.getTimeMillis

end Stonecoin
