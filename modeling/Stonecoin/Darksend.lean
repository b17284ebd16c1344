/-
The data of mixing (`darksend.h`, `darksend.cpp`): entries, denominations and the pool.

Left out of the pool are the queues, what is locked in the wallet, the counters and texts that
are shown to the user, and the masternode that a client has chosen.
-/
import Stonecoin.Transaction
import Mathlib.Algebra.BigOperators.Group.Finset.Basic
import Mathlib.Data.Int.Bitwise

namespace Stonecoin

def PRIVATESEND_QUEUE_TIMEOUT : ℤ := 30
def PRIVATESEND_SIGNING_TIMEOUT : ℤ := 15
def MIN_PRIVATESEND_PEER_PROTO_VERSION : ℤ := 70206
def PRIVATESEND_COLLATERAL : ℤ := COIN / 1000
def PRIVATESEND_POOL_MAX : ℤ := 999999 * (COIN / 1000)

def vecPrivateSendDenominations : List ℤ :=
  [10 * COIN + 10000, COIN + 1000, COIN / 10 + 100, COIN / 100 + 10]

structure CMutableTransaction where
  nVersion : ℤ
  vin : List CTxIn
  vout : List CTxOut
  nLockTime : ℕ
deriving DecidableEq

def CMutableTransaction.empty : CMutableTransaction := ⟨1, [], [], 0⟩

def CMutableTransaction.of (tx : CTransaction) : CMutableTransaction :=
  ⟨tx.nVersion, tx.vin, tx.vout, tx.nLockTime⟩

/-- A `CTxDSIn`.  The script that is spent is known to the client alone: `CTxIn` does not
serialize `prevPubKey`. -/
structure CTxDSIn extends CTxIn where
  prevPubKey : CScript
  fHasSig : Bool
deriving DecidableEq

def CTxDSIn.read (txin : CTxIn) : CTxDSIn := ⟨txin, [], false⟩

structure CDarkSendEntry where
  vecTxDSIn : List CTxDSIn
  vecTxDSOut : List CTxOut
  txCollateral : CTransaction
deriving DecidableEq

/-! ### Denominations -/

/-- The loop of `GetDenominations` over the outputs, which marks the denominations that are
used. -/
def useDenominations : List (ℤ × ℕ) → List CTxOut → Option (List (ℤ × ℕ))
  | vecDenomUsed, [] => some vecDenomUsed
  | vecDenomUsed, txout :: vecTxOut =>
    if vecDenomUsed.any fun s => txout.nValue = s.1 then
      useDenominations (vecDenomUsed.map fun s => if txout.nValue = s.1 then (s.1, 1) else s)
        vecTxOut
    else none

/-- `GetDenominations`: the bits of the denominations that are used, or 0 if an output has
another amount. -/
def getDenominations (vecTxOut : List CTxOut) : ℤ :=
  match useDenominations (vecPrivateSendDenominations.map fun nDenomValue => (nDenomValue, 0))
      vecTxOut with
  | none => 0
  | some vecDenomUsed =>
    (vecDenomUsed.zipIdx.foldl (fun nDenom s => nDenom ||| s.1.2 <<< s.2) 0 : ℕ)

def getDenominationsBits (nDenom : ℤ) : Option (List ℕ) :=
  let nMaxDenoms := vecPrivateSendDenominations.length
  if 1 <<< nMaxDenoms ≤ nDenom then none
  else
    let vecBits := (List.range nMaxDenoms).filter fun i => nDenom.testBit i
    if vecBits.isEmpty then none else some vecBits

/-! ### The pool -/

inductive PoolState
  | POOL_STATE_IDLE
  | POOL_STATE_QUEUE
  | POOL_STATE_ACCEPTING_ENTRIES
  | POOL_STATE_SIGNING
  | POOL_STATE_ERROR
  | POOL_STATE_SUCCESS
deriving DecidableEq

structure CDarksendPool where
  vecSessionCollaterals : List CTransaction
  vecEntries : List CDarkSendEntry
  nState : PoolState
  nTimeLastSuccessfulStep : ℤ
  nSessionID : ℤ
  nSessionDenom : ℤ
  finalMutableTransaction : CMutableTransaction

namespace CDarksendPool

open PoolState

def setNull (pool : CDarksendPool) (getTimeMillis : ℤ) : CDarksendPool where
  vecSessionCollaterals := []
  vecEntries := []
  nState := POOL_STATE_IDLE
  nTimeLastSuccessfulStep := getTimeMillis
  nSessionID := 0
  nSessionDenom := 0
  finalMutableTransaction := { pool.finalMutableTransaction with vin := [], vout := [] }

def init (getTimeMillis : ℤ) : CDarksendPool where
  vecSessionCollaterals := []
  vecEntries := []
  nState := POOL_STATE_IDLE
  nTimeLastSuccessfulStep := getTimeMillis
  nSessionID := 0
  nSessionDenom := 0
  finalMutableTransaction := .empty

end CDarksendPool

end Stonecoin
