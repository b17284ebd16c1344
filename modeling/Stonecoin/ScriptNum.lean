/-
How the evaluation of a script may stop (`script/script_error.h`), and the numbers of
scripts (`class CScriptNum` of `script/script.h`).

Evaluation returns with a `ScriptError`, throws an exception, or does what the code must
never do: fail an assertion, overflow 64 bits or use an iterator out of range.  The value of a
`CScriptNum` is an integer here, and every operation checks that it fits an `int64_t`.
-/
import Stonecoin.Outcomes
import Stonecoin.Script
import Mathlib.Algebra.Order.Ring.Int
import Mathlib.Tactic.IntervalCases

namespace Stonecoin

open Outcomes

/-! ### How evaluation stops -/

inductive ScriptError
  | SCRIPT_ERR_OK
  | SCRIPT_ERR_UNKNOWN_ERROR
  | SCRIPT_ERR_EVAL_FALSE
  | SCRIPT_ERR_OP_RETURN
  | SCRIPT_ERR_SCRIPT_SIZE
  | SCRIPT_ERR_PUSH_SIZE
  | SCRIPT_ERR_OP_COUNT
  | SCRIPT_ERR_STACK_SIZE
  | SCRIPT_ERR_SIG_COUNT
  | SCRIPT_ERR_PUBKEY_COUNT
  | SCRIPT_ERR_VERIFY
  | SCRIPT_ERR_EQUALVERIFY
  | SCRIPT_ERR_CHECKMULTISIGVERIFY
  | SCRIPT_ERR_CHECKSIGVERIFY
  | SCRIPT_ERR_NUMEQUALVERIFY
  | SCRIPT_ERR_BAD_OPCODE
  | SCRIPT_ERR_DISABLED_OPCODE
  | SCRIPT_ERR_INVALID_STACK_OPERATION
  | SCRIPT_ERR_INVALID_ALTSTACK_OPERATION
  | SCRIPT_ERR_UNBALANCED_CONDITIONAL
  | SCRIPT_ERR_NEGATIVE_LOCKTIME
  | SCRIPT_ERR_UNSATISFIED_LOCKTIME
  | SCRIPT_ERR_SIG_HASHTYPE
  | SCRIPT_ERR_SIG_DER
  | SCRIPT_ERR_MINIMALDATA
  | SCRIPT_ERR_SIG_PUSHONLY
  | SCRIPT_ERR_SIG_HIGH_S
  | SCRIPT_ERR_SIG_NULLDUMMY
  | SCRIPT_ERR_PUBKEYTYPE
  | SCRIPT_ERR_CLEANSTACK
  | SCRIPT_ERR_DISCOURAGE_UPGRADABLE_NOPS
deriving DecidableEq, Repr

inductive Thrown
  | scriptnum_error (what : String)
  /-- `vector::at`. -/
  | out_of_range
  | runtime_error (what : String)
deriving DecidableEq, Repr

/-- What has no defined outcome, or stops the program; `unfinished` is a loop that has not
come to its end. -/
inductive Fault
  | assertion
  | overflow
  | iterator
  | unfinished
deriving DecidableEq, Repr

inductive Stop
  | error (e : ScriptError)
  | thrown (x : Thrown)
  | fault (f : Fault)
deriving DecidableEq, Repr

/-- `return set_error(serror, ...)`, or a `scriptnum_error`. -/
def Stop.Harmless : Stop → Prop
  | .error _ => True
  | .thrown (.scriptnum_error _) => True
  | _ => False

/-! ### 64-bit arithmetic -/

def INT64_MIN : ℤ := -9223372036854775808
def INT64_MAX : ℤ := 9223372036854775807

/-- A result of signed 64-bit arithmetic. -/
def int64 (v : ℤ) : Except Stop ℤ :=
  if INT64_MIN ≤ v ∧ v ≤ INT64_MAX then .ok v else .error (.fault .overflow)

/-! ### Reading a number -/

/-- The number is not encoded with the minimum possible number of bytes. -/
def notMinimal (vch : List UInt8) : Bool :=
  -- the most significant byte, without the sign bit, is zero
  vch.getLastD 0 &&& 0x7f = 0 &&
    -- and not needed because of the sign bit of the byte before
    (vch.length ≤ 1 || vch.getD (vch.length - 2) 0 &&& 0x80 = 0)

/-- `CScriptNum::set_vch`.  The bytes of an `int64_t` can be shifted to their places; in the
highest one, the sign bit makes the result negative until it is removed. -/
def setVch (vch : List UInt8) : Except Stop ℤ :=
  let result := readLE vch
  if 8 < vch.length then .error (.fault .overflow)
  else if vch.getLastD 0 &&& 0x80 ≠ 0 then
    -- the sign bit is removed
    .ok (-((result - 0x80 * 256 ^ (vch.length - 1) : ℕ) : ℤ))
  else .ok result

def scriptNum (vch : List UInt8) (fRequireMinimal : Bool) (nMaxNumSize : ℕ) : Except Stop ℤ :=
  if nMaxNumSize < vch.length then
    .error (.thrown (.scriptnum_error "script number overflow"))
  else if fRequireMinimal && !vch.isEmpty && notMinimal vch then
    .error (.thrown (.scriptnum_error "non-minimally encoded script number"))
  else setVch vch

def nDefaultMaxNumSize : ℕ := 4

def getint (v : ℤ) : ℤ := max (-2147483648) (min v 2147483647)

/-! ### Arithmetic -/

/-- `operator-()`. -/
def scriptNumNeg (v : ℤ) : Except Stop ℤ :=
  if v = INT64_MIN then .error (.fault .assertion) else int64 (-v)

/-- `operator+=`. -/
def scriptNumAddAssign (v rhs : ℤ) : Except Stop ℤ :=
  if rhs = 0 ∨ 0 < rhs ∧ v ≤ INT64_MAX - rhs ∨ rhs < 0 ∧ INT64_MIN - rhs ≤ v then
    int64 (v + rhs)
  else .error (.fault .assertion)

/-- `operator-=`. -/
def scriptNumSubAssign (v rhs : ℤ) : Except Stop ℤ :=
  if rhs = 0 ∨ 0 < rhs ∧ INT64_MIN + rhs ≤ v ∨ rhs < 0 ∧ v ≤ INT64_MAX + rhs then
    int64 (v - rhs)
  else .error (.fault .assertion)

/-! ### Writing a number -/

/-- The bytes of an `uint64_t`, lowest first, without leading zeros. -/
def absBytes : ℕ → ℕ → List UInt8
  | 0, _ => []
  | fuel + 1, absvalue =>
    if absvalue = 0 then [] else UInt8.ofNat (absvalue % 256) :: absBytes fuel (absvalue / 256)

def serialize (value : ℤ) : List UInt8 :=
  if value = 0 then []
  else
    let result := absBytes 8 value.natAbs
    if result.getLastD 0 &&& 0x80 ≠ 0 then result ++ [if value < 0 then 0x80 else 0]
    else if value < 0 then result.dropLast ++ [result.getLastD 0 ||| 0x80]
    else result

def getvch (v : ℤ) : Except Stop (List UInt8) :=
  -- the negation of the least number overflows
  if v = INT64_MIN then .error (.fault .overflow) else .ok (serialize v)

/-! ### What reading gives -/

theorem readLE_lt : ∀ bs : List UInt8, readLE bs < 256 ^ bs.length := by
  intro bs
  induction bs with
  | nil => exact Nat.one_pos
  | cons b bs ih =>
    have hb := b.toNat_lt
    rw [readLE, List.length_cons, Nat.pow_succ]
    omega

theorem ensures_scriptNum (vch : List UInt8) (fRequireMinimal : Bool) {nMaxNumSize : ℕ}
    (hmax : nMaxNumSize ≤ 5) :
    Ensures Stop.Harmless (fun v => v.natAbs < 256 ^ nMaxNumSize)
      (scriptNum vch fRequireMinimal nMaxNumSize) := by
  unfold scriptNum
  apply Ensures.ite (fun _ => ensures_error.mpr trivial)
  intro hlen
  apply Ensures.ite (fun _ => ensures_error.mpr trivial)
  intro _
  have hle : vch.length ≤ nMaxNumSize := Nat.le_of_not_lt hlen
  have hlt : readLE vch < 256 ^ nMaxNumSize :=
    (readLE_lt vch).trans_le (Nat.pow_le_pow_right (by decide) hle)
  have hpow : 256 ^ nMaxNumSize ≤ 256 ^ 5 := Nat.pow_le_pow_right (by decide) hmax
  have h5 : 256 ^ 5 = 1099511627776 := rfl
  unfold setVch
  rw [if_neg (by omega)]
  apply Ensures.ite
  · intro _
    show Int.natAbs _ < _
    omega
  · intro _
    show Int.natAbs _ < _
    omega

theorem scriptNum_relax {vch : List UInt8} {f g : Bool} {nMaxNumSize : ℕ}
    (hfg : g = true → f = true) :
    Refines (scriptNum vch f nMaxNumSize) (scriptNum vch g nMaxNumSize) := by
  apply Refines.ite (fun _ => Refines.error _ _)
  intro _
  apply Refines.check
  · intro h
    simp only [Bool.and_eq_true] at h ⊢
    exact ⟨⟨hfg h.1.1, h.1.2⟩, h.2⟩
  · exact .refl _

/-! ### What writing gives -/

theorem length_absBytes : ∀ fuel n : ℕ, (absBytes fuel n).length ≤ fuel := by
  intro fuel
  induction fuel with
  | zero => exact fun n => le_rfl
  | succ fuel ih =>
    intro n
    rw [absBytes]
    split
    · exact Nat.zero_le _
    · exact Nat.succ_le_succ (ih _)

theorem length_serialize (v : ℤ) : (serialize v).length ≤ 9 := by
  have h := length_absBytes 8 v.natAbs
  unfold serialize
  split
  · exact Nat.zero_le _
  dsimp only
  split
  · rw [List.length_append, List.length_singleton]
    omega
  split
  · rw [List.length_append, List.length_singleton, List.length_dropLast]
    omega
  · omega

theorem scriptNum_serialize_small {n : ℕ} (h0 : 0 < n) (h16 : n ≤ 16) (fRequireMinimal : Bool) :
    scriptNum (serialize n) fRequireMinimal nDefaultMaxNumSize = .ok (n : ℤ) := by
  have hall : ∀ k < 17, ∀ f : Bool, 0 < k →
      scriptNum (serialize (k : ℕ)) f nDefaultMaxNumSize = .ok ((k : ℕ) : ℤ) := by
    intro k hk f hpos
    interval_cases k <;> cases f <;> rfl
  exact hall n (Nat.lt_succ_of_le h16) fRequireMinimal h0

end Stonecoin
