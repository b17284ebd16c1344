/-
Amounts, transactions and blocks (`amount.h`, `primitives/transaction.h`,
`primitives/block.h`, `serialize.h`), and the context-free transaction check
`CheckTransaction` of `main.cpp`.

A transaction carries its identifier in the field `hash`, as the source does; two
transactions are compared through it.
-/
import Stonecoin.Script
import Mathlib.Algebra.BigOperators.Group.List.Basic
import Mathlib.Algebra.Order.BigOperators.Group.List
import Mathlib.Algebra.Order.Ring.Int

namespace Stonecoin

/-! ### Amounts -/

/-- `COIN`.  A `CAmount` is an integer here: every sum the code forms is range-checked
term by term, so no 64-bit overflow occurs. -/
def COIN : ℤ := 100000000
def MAX_MONEY : ℤ := 21000000 * COIN

def moneyRange (nValue : ℤ) : Bool := 0 ≤ nValue ∧ nValue ≤ MAX_MONEY

theorem moneyRange_iff {v : ℤ} : moneyRange v = true ↔ 0 ≤ v ∧ v ≤ MAX_MONEY := by
  simp [moneyRange]

def MAX_BLOCK_SIZE : ℕ := 1000000
def MAX_BLOCK_SIGOPS : ℕ := MAX_BLOCK_SIZE / 50
def COINBASE_MATURITY : ℤ := 100

/-! ### Transactions -/

/-- A reference to one output of a transaction. -/
structure COutPoint where
  hash : UInt256
  n : ℕ
deriving DecidableEq, Repr

def COutPoint.null : COutPoint := ⟨0, 4294967295⟩

def COutPoint.isNull (o : COutPoint) : Bool := o.hash = 0 ∧ o.n = 4294967295

structure CTxIn where
  prevout : COutPoint
  scriptSig : CScript
  nSequence : ℕ
deriving DecidableEq, Repr

/-- An output.  Its `operator==` compares all three fields. -/
structure CTxOut where
  nValue : ℤ
  scriptPubKey : CScript
  nRounds : ℤ
deriving DecidableEq, Repr

def CTxOut.null : CTxOut := ⟨-1, [], -10⟩

def CTxOut.of (nValue : ℤ) (scriptPubKey : CScript) : CTxOut := ⟨nValue, scriptPubKey, -10⟩

def CTxOut.isNull (o : CTxOut) : Bool := o.nValue = -1

@[simp] theorem CTxOut.null_isNull : CTxOut.null.isNull = true := rfl

structure CTransaction where
  hash : UInt256
  nVersion : ℤ
  vin : List CTxIn
  vout : List CTxOut
  nLockTime : ℕ
deriving DecidableEq, Repr

def CTransaction.isCoinBase (tx : CTransaction) : Bool :=
  match tx.vin with
  | [i] => i.prevout.isNull
  | _ => false

/-- The loop of `CTransaction::GetValueOut`; `none` is the exception it throws. -/
def getValueOutLoop : ℤ → List CTxOut → Option ℤ
  | nValueOut, [] => some nValueOut
  | nValueOut, o :: os =>
    let nValueOut := nValueOut + o.nValue
    if !moneyRange o.nValue || !moneyRange nValueOut then none
    else getValueOutLoop nValueOut os

def CTransaction.getValueOut (tx : CTransaction) : Option ℤ :=
  getValueOutLoop 0 tx.vout

theorem getValueOutLoop_some : ∀ {os : List CTxOut} {acc v : ℤ}, acc ≤ MAX_MONEY →
    getValueOutLoop acc os = some v →
    (∀ o ∈ os, 0 ≤ o.nValue) ∧ v = acc + (os.map (·.nValue)).sum ∧ v ≤ MAX_MONEY
  | [], acc, v, hacc, h => by
    obtain rfl := Option.some.inj h
    simp [hacc]
  | o :: os, acc, v, _, h => by
    rw [getValueOutLoop] at h
    by_cases hout : (!moneyRange o.nValue || !moneyRange (acc + o.nValue)) = true
    · rw [if_pos hout] at h
      exact absurd h (by simp)
    · rw [if_neg hout] at h
      simp only [Bool.or_eq_true, Bool.not_eq_true', not_or, Bool.not_eq_false] at hout
      have ho := moneyRange_iff.mp hout.1
      have hacc' := moneyRange_iff.mp hout.2
      obtain ⟨hnonneg, hv, hmax⟩ := getValueOutLoop_some hacc'.2 h
      refine ⟨fun x hx => ?_, by rw [hv, List.map_cons, List.sum_cons, Int.add_assoc], hmax⟩
      rcases List.mem_cons.mp hx with rfl | hx
      · exact ho.1
      · exact hnonneg x hx

/-! ### Serialized sizes -/

def getSizeOfCompactSize (n : ℕ) : ℕ :=
  if n < 253 then 1 else if n ≤ 0xffff then 3 else if n ≤ 0xffffffff then 5 else 9

def scriptSerializeSize (s : CScript) : ℕ := getSizeOfCompactSize s.length + s.length

/-- `GetSerializeSize(tx)`: version, inputs, outputs, lock time. -/
def CTransaction.getSerializeSize (tx : CTransaction) : ℕ :=
  4 + getSizeOfCompactSize tx.vin.length
    + (tx.vin.map fun i => 36 + scriptSerializeSize i.scriptSig + 4).sum
    + getSizeOfCompactSize tx.vout.length
    + (tx.vout.map fun o => 8 + scriptSerializeSize o.scriptPubKey).sum + 4

/-! ### Rejections -/

def REJECT_INVALID : ℕ := 0x10

/-- What a check leaves in its `CValidationState` when it fails. -/
structure Reject where
  nDoS : ℕ
  chRejectCode : ℕ
  strRejectReason : String
  corruptionPossible : Bool
deriving DecidableEq, Repr

/-- `return state.DoS(level, false, REJECT_INVALID, reason, corruption)`. -/
def dos {α : Type} (level : ℕ) (reason : String) (corruption : Bool) : Except Reject α :=
  .error ⟨level, REJECT_INVALID, reason, corruption⟩

/-! ### `CheckTransaction` -/

def checkTxOuts : ℤ → List CTxOut → Except Reject Unit
  | _, [] => .ok ()
  | nValueOut, o :: os =>
    if o.nValue < 0 then dos 100 "bad-txns-vout-negative" false
    else if MAX_MONEY < o.nValue then dos 100 "bad-txns-vout-toolarge" false
    else if !moneyRange (nValueOut + o.nValue) then
      dos 100 "bad-txns-txouttotal-toolarge" false
    else checkTxOuts (nValueOut + o.nValue) os

/-- The duplicate-input loop of `CheckTransaction`, with its `set<COutPoint>`. -/
def checkTxIns : List COutPoint → List CTxIn → Except Reject Unit
  | _, [] => .ok ()
  | vInOutPoints, i :: is =>
    if i.prevout ∈ vInOutPoints then dos 100 "bad-txns-inputs-duplicate" false
    else checkTxIns (i.prevout :: vInOutPoints) is

/-- The last check: the length of a coinbase script, or no null prevout. -/
def checkTxCoinBase (tx : CTransaction) : Except Reject Unit :=
  if tx.isCoinBase then
    match tx.vin with
    | i :: _ =>
      if i.scriptSig.length < 2 ∨ 100 < i.scriptSig.length then dos 100 "bad-cb-length" false
      else .ok ()
    | [] => .ok ()
  else if tx.vin.any fun i => i.prevout.isNull then dos 10 "bad-txns-prevout-null" false
  else .ok ()

def checkTransaction (tx : CTransaction) : Except Reject Unit :=
  if tx.vin.isEmpty then dos 10 "bad-txns-vin-empty" false
  else if tx.vout.isEmpty then dos 10 "bad-txns-vout-empty" false
  else if MAX_BLOCK_SIZE < tx.getSerializeSize then dos 100 "bad-txns-oversize" false
  else
    match checkTxOuts 0 tx.vout with
    | .error e => .error e
    | .ok () =>
      match checkTxIns [] tx.vin with
      | .error e => .error e
      | .ok () => checkTxCoinBase tx

theorem checkTxOuts_ok_iff {os : List CTxOut} :
    ∀ {acc : ℤ}, 0 ≤ acc → acc ≤ MAX_MONEY →
      (checkTxOuts acc os = .ok () ↔
        (∀ o ∈ os, 0 ≤ o.nValue) ∧ acc + (os.map CTxOut.nValue).sum ≤ MAX_MONEY) := by
  induction os with
  | nil => intro acc _ h; simpa [checkTxOuts] using h
  | cons o os ih =>
    intro acc h0 hmax
    simp only [checkTxOuts, List.mem_cons, forall_eq_or_imp, List.map_cons, List.sum_cons]
    by_cases hneg : o.nValue < 0
    · simp [hneg, dos]
    have hsum : (∀ x ∈ os, 0 ≤ x.nValue) → 0 ≤ (os.map CTxOut.nValue).sum := fun h =>
      List.sum_nonneg fun v hv => by
        obtain ⟨x, hx, rfl⟩ := List.mem_map.mp hv
        exact h x hx
    rw [if_neg hneg]
    by_cases hbig : MAX_MONEY < o.nValue
    · simp only [hbig, if_true, dos, reduceCtorEq, false_iff]
      rintro ⟨⟨-, hos⟩, hle⟩
      have := hsum hos
      omega
    rw [if_neg hbig]
    by_cases hr : moneyRange (acc + o.nValue) = true
    · have hr' := moneyRange_iff.mp hr
      simp only [hr, Bool.not_true, Bool.false_eq_true, if_false, ih hr'.1 hr'.2]
      constructor
      · rintro ⟨h₁, h₂⟩
        exact ⟨⟨by omega, h₁⟩, by omega⟩
      · rintro ⟨⟨-, h₁⟩, h₂⟩
        exact ⟨h₁, by omega⟩
    · simp only [hr, Bool.not_false, if_true, dos, reduceCtorEq, false_iff]
      rintro ⟨⟨hv, hos⟩, hle⟩
      have := hsum hos
      exact hr (moneyRange_iff.mpr ⟨by omega, by omega⟩)

theorem checkTxIns_ok_iff {is : List CTxIn} :
    ∀ {seen : List COutPoint}, checkTxIns seen is = .ok () ↔
      (is.map CTxIn.prevout).Nodup ∧ ∀ i ∈ is, i.prevout ∉ seen := by
  induction is with
  | nil => intro seen; simp [checkTxIns]
  | cons i is ih =>
    intro seen
    simp only [checkTxIns]
    by_cases hi : i.prevout ∈ seen
    · simp [hi, dos]
    · simp only [hi, if_false, ih, List.mem_cons, not_or, List.map_cons, List.nodup_cons,
        List.mem_map, not_exists, not_and, forall_eq_or_imp]
      constructor
      · rintro ⟨hnd, hall⟩
        exact ⟨⟨fun x hx e => (hall x hx).1 e, hnd⟩, not_false, fun x hx => (hall x hx).2⟩
      · rintro ⟨⟨hne, hnd⟩, -, hall⟩
        exact ⟨hnd, fun x hx => ⟨hne x hx, hall x hx⟩⟩

/-- **What `CheckTransaction` accepts.**  Inputs and outputs are present, the size is
bounded, outputs are non-negative with a total in range, inputs pairwise different, and
a null prevout occurs in a coinbase only. -/
structure TransactionOk (tx : CTransaction) : Prop where
  vin_ne : tx.vin ≠ []
  vout_ne : tx.vout ≠ []
  size_le : tx.getSerializeSize ≤ MAX_BLOCK_SIZE
  value_nonneg : ∀ o ∈ tx.vout, 0 ≤ o.nValue
  total_le : (tx.vout.map CTxOut.nValue).sum ≤ MAX_MONEY
  inputs_nodup : (tx.vin.map CTxIn.prevout).Nodup
  coinbase_len : tx.isCoinBase = true →
    ∀ i ∈ tx.vin, 2 ≤ i.scriptSig.length ∧ i.scriptSig.length ≤ 100
  prevout_ne : tx.isCoinBase = false → ∀ i ∈ tx.vin, i.prevout.isNull = false

theorem checkTxCoinBase_ok_iff {tx : CTransaction} :
    checkTxCoinBase tx = .ok () ↔
      (tx.isCoinBase = true → ∀ i ∈ tx.vin, 2 ≤ i.scriptSig.length ∧ i.scriptSig.length ≤ 100) ∧
      (tx.isCoinBase = false → ∀ i ∈ tx.vin, i.prevout.isNull = false) := by
  unfold checkTxCoinBase
  by_cases hc : tx.isCoinBase = true
  · obtain ⟨i, hi⟩ : ∃ i, tx.vin = [i] := by
      unfold CTransaction.isCoinBase at hc
      split at hc
      · exact ⟨_, ‹_›⟩
      · cases hc
    by_cases hl : i.scriptSig.length < 2 ∨ 100 < i.scriptSig.length
    · simp only [hc, hi, hl, if_true, dos, reduceCtorEq, List.mem_singleton, false_iff]
      simp only [forall_eq, forall_const, false_implies, and_true]
      omega
    · simp only [hc, hi, hl, if_true, if_false, List.mem_singleton, true_iff]
      simp only [forall_eq, forall_const, reduceCtorEq, false_implies, and_true]
      omega
  · have hc' : tx.isCoinBase = false := by simpa using hc
    by_cases hn : (tx.vin.any fun i => i.prevout.isNull) = true
    · simp only [hc', hn, dos, if_true, Bool.false_eq_true, if_false, reduceCtorEq, false_iff,
        false_implies, true_and, forall_const]
      obtain ⟨i, hi, hnull⟩ := List.any_eq_true.mp hn
      exact fun h => by simp [h i hi] at hnull
    · simp only [hc', hn, Bool.false_eq_true, if_false, true_iff, false_implies, true_and,
        forall_const]
      exact fun i hi => by simpa using fun h => hn (List.any_eq_true.mpr ⟨i, hi, h⟩)

theorem checkTransaction_ok_iff {tx : CTransaction} :
    checkTransaction tx = .ok () ↔ TransactionOk tx := by
  have hout := @checkTxOuts_ok_iff tx.vout 0 le_rfl (by decide)
  have hin := @checkTxIns_ok_iff tx.vin []
  have hcb := @checkTxCoinBase_ok_iff tx
  unfold checkTransaction
  constructor
  · intro h
    split at h
    · cases h
    split at h
    · cases h
    split at h
    · cases h
    cases eo : checkTxOuts 0 tx.vout with
    | error e => simp [eo] at h
    | ok u =>
      cases ei : checkTxIns [] tx.vin with
      | error e => simp [eo, ei] at h
      | ok u =>
        simp only [eo, ei] at h
        have ho := hout.mp eo
        have hc := hcb.mp h
        exact ⟨by simpa using ‹¬ tx.vin.isEmpty = true›, by simpa using ‹¬ tx.vout.isEmpty = true›,
          by omega, ho.1, by simpa using ho.2, (hin.mp ei).1, hc.1, hc.2⟩
  · intro h
    have eo := hout.mpr ⟨h.value_nonneg, by simpa using h.total_le⟩
    have ei := hin.mpr ⟨h.inputs_nodup, by simp⟩
    have ec := hcb.mpr ⟨h.coinbase_len, h.prevout_ne⟩
    have hsz := h.size_le
    simp only [List.isEmpty_iff, h.vin_ne, h.vout_ne, if_false, eo, ei, ec]
    rw [if_neg (by omega)]

end Stonecoin
