/-
Scripts as byte strings (`script/script.h`, `script/standard.cpp`): reading one
opcode with its immediate operand, the legacy signature-operation count, the three
shape tests used by the coin database and the address index, and the output script
of a destination.
-/
import Mathlib.Data.List.Basic
import Mathlib.Data.Nat.Notation
import Mathlib.Order.Basic

namespace Stonecoin

/-- A 256-bit hash (`uint256`); its byte order plays no role here. -/
abbrev UInt256 := BitVec 256

instance : LawfulBEq UInt256 := inferInstance

/-- A 160-bit hash (`uint160`): exactly twenty bytes. -/
structure UInt160 where
  bytes : List UInt8
  size_eq : bytes.length = 20
deriving DecidableEq, Repr

/-- `uint160(vch)`: the blob built from the first twenty bytes.  The source asserts
that there are exactly twenty. -/
def UInt160.ofBytes (vch : List UInt8) : UInt160 where
  bytes := (List.range 20).map fun i => vch.getD i 0
  size_eq := by simp

/-- The zero hash. -/
def UInt160.null : UInt160 := UInt160.ofBytes []

abbrev CScript := List UInt8

/-! ### Opcodes -/

def OP_PUSHDATA1 : UInt8 := 0x4c
def OP_PUSHDATA2 : UInt8 := 0x4d
def OP_PUSHDATA4 : UInt8 := 0x4e
def OP_1 : UInt8 := 0x51
def OP_16 : UInt8 := 0x60
def OP_RETURN : UInt8 := 0x6a
def OP_DUP : UInt8 := 0x76
def OP_EQUAL : UInt8 := 0x87
def OP_EQUALVERIFY : UInt8 := 0x88
def OP_HASH160 : UInt8 := 0xa9
def OP_CHECKSIG : UInt8 := 0xac
def OP_CHECKSIGVERIFY : UInt8 := 0xad
def OP_CHECKMULTISIG : UInt8 := 0xae
def OP_CHECKMULTISIGVERIFY : UInt8 := 0xaf
def OP_INVALIDOPCODE : UInt8 := 0xff

def MAX_PUBKEYS_PER_MULTISIG : ℕ := 20

def readLE : List UInt8 → ℕ
  | [] => 0
  | b :: bs => b.toNat + 256 * readLE bs

def writeLE : ℕ → ℕ → List UInt8
  | 0, _ => []
  | width + 1, n => UInt8.ofNat (n % 256) :: writeLE width (n / 256)

/-- The size field of an immediate operand: its width in bytes for the opcode, or
`none` when the opcode byte itself is the size. -/
def pushSizeWidth (opcode : UInt8) : Option ℕ :=
  if opcode < OP_PUSHDATA1 then none
  else if opcode = OP_PUSHDATA1 then some 1
  else if opcode = OP_PUSHDATA2 then some 2
  else some 4

/-- `CScript::GetOp2`: the opcode at the front of the script, its operand, and the
rest of the script; `none` at the end of the script or on a truncated operand. -/
def getOp : CScript → Option (UInt8 × List UInt8 × CScript)
  | [] => none
  | opcode :: pc =>
    if opcode ≤ OP_PUSHDATA4 then
      match pushSizeWidth opcode with
      | none =>
        if pc.length < opcode.toNat then none
        else some (opcode, pc.take opcode.toNat, pc.drop opcode.toNat)
      | some w =>
        if pc.length < w then none
        else
          let nSize := readLE (pc.take w)
          let pc := pc.drop w
          if pc.length < nSize then none
          else some (opcode, pc.take nSize, pc.drop nSize)
    else some (opcode, [], pc)

theorem getOp_length_lt {s rest : CScript} {op : UInt8} {vch : List UInt8}
    (h : getOp s = some (op, vch, rest)) : rest.length < s.length := by
  cases s with
  | nil => simp [getOp] at h
  | cons b pc =>
    -- whatever the operand, the rest is a suffix of what follows the opcode byte
    have hdrop : ∀ n m : ℕ, ((pc.drop m).drop n).length < (b :: pc).length := by
      intro n m
      simp only [List.length_drop, List.length_cons]
      omega
    simp only [getOp] at h
    split at h
    · split at h
      · split at h
        · cases h
        · cases h
          exact hdrop _ 0
      · split at h
        · cases h
        · split at h
          · cases h
          · cases h
            exact hdrop _ _
    · cases h
      exact hdrop 0 0

/-! ### Signature operations -/

/-- The signature operations one opcode counts for.  `lastOpcode` matters in the
accurate mode only, where `OP_N CHECKMULTISIG` counts `N`. -/
def sigOpsOf (fAccurate : Bool) (lastOpcode opcode : UInt8) : ℕ :=
  if opcode = OP_CHECKSIG ∨ opcode = OP_CHECKSIGVERIFY then 1
  else if opcode = OP_CHECKMULTISIG ∨ opcode = OP_CHECKMULTISIGVERIFY then
    if fAccurate ∧ OP_1 ≤ lastOpcode ∧ lastOpcode ≤ OP_16 then
      lastOpcode.toNat - (OP_1.toNat - 1)
    else MAX_PUBKEYS_PER_MULTISIG
  else 0

/-- The loop of `CScript::GetSigOpCount`: stop at the end or at the first opcode
that cannot be read. -/
def getSigOpCountLoop (fAccurate : Bool) : ℕ → UInt8 → CScript → ℕ → ℕ
  | 0, _, _, n => n
  | fuel + 1, lastOpcode, pc, n =>
    match getOp pc with
    | none => n
    | some (opcode, _, pc') =>
      getSigOpCountLoop fAccurate fuel opcode pc' (n + sigOpsOf fAccurate lastOpcode opcode)

def getSigOpCount (s : CScript) (fAccurate : Bool) : ℕ :=
  getSigOpCountLoop fAccurate s.length OP_INVALIDOPCODE s 0

theorem getSigOpCountLoop_fuel (fAccurate : Bool) :
    ∀ (f₁ f₂ : ℕ) (last : UInt8) (pc : CScript) (n : ℕ), pc.length ≤ f₁ → pc.length ≤ f₂ →
      getSigOpCountLoop fAccurate f₁ last pc n = getSigOpCountLoop fAccurate f₂ last pc n := by
  intro f₁
  induction f₁ with
  | zero =>
    intro f₂ last pc n h₁ _
    obtain rfl : pc = [] := List.length_eq_zero_iff.mp (Nat.le_zero.mp h₁)
    cases f₂ <;> rfl
  | succ f₁ ih =>
    intro f₂ last pc n h₁ h₂
    cases f₂ with
    | zero =>
      obtain rfl : pc = [] := List.length_eq_zero_iff.mp (Nat.le_zero.mp h₂)
      rfl
    | succ f₂ =>
      simp only [getSigOpCountLoop]
      cases e : getOp pc with
      | none => rfl
      | some r =>
        have hlt := getOp_length_lt e
        exact ih _ _ _ _ (by omega) (by omega)

/-! ### Values and pushes -/

/-- `CastToBool`: some byte is not zero, and it is not negative zero. -/
def castToBool : List UInt8 → Bool
  | [] => false
  | b :: vch => if b ≠ 0 then !(vch.isEmpty && b = 0x80) else castToBool vch

def isPushOnlyLoop : ℕ → CScript → Bool
  | _, [] => true
  | 0, _ => false
  | fuel + 1, s =>
    match getOp s with
    | none => false
    | some (opcode, _, rest) => if OP_16 < opcode then false else isPushOnlyLoop fuel rest

def isPushOnly (s : CScript) : Bool := isPushOnlyLoop s.length s

/-! ### Shapes of an output script -/

def isPayToPublicKeyHash (s : CScript) : Bool :=
  s.length = 25 ∧ s.getD 0 0 = OP_DUP ∧ s.getD 1 0 = OP_HASH160 ∧ s.getD 2 0 = 0x14 ∧
    s.getD 23 0 = OP_EQUALVERIFY ∧ s.getD 24 0 = OP_CHECKSIG

def isPayToScriptHash (s : CScript) : Bool :=
  s.length = 23 ∧ s.getD 0 0 = OP_HASH160 ∧ s.getD 1 0 = 0x14 ∧ s.getD 22 0 = OP_EQUAL

/-- `CScript::IsUnspendable`: execution is guaranteed to fail, so the output never
enters the coin set. -/
def isUnspendable (s : CScript) : Bool :=
  s.head? = some OP_RETURN

/-! ### Destinations -/

inductive CTxDestination where
  | noDestination
  | keyID (h : UInt160)
  | scriptID (h : UInt160)
deriving DecidableEq, Repr

/-- `GetScriptForDestination`: pushing twenty bytes writes the length byte `0x14`. -/
def getScriptForDestination : CTxDestination → CScript
  | .noDestination => []
  | .keyID h => [OP_DUP, OP_HASH160, 0x14] ++ h.bytes ++ [OP_EQUALVERIFY, OP_CHECKSIG]
  | .scriptID h => [OP_HASH160, 0x14] ++ h.bytes ++ [OP_EQUAL]

end Stonecoin
