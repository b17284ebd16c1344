/-
The script interpreter (`script/interpreter.cpp`): `EvalScript` and `VerifyScript`.

A stack is a list whose head is its top, so that `stacktop(-i)` is the entry `i - 1`.  Every
access is checked, as `vector::at` does it; the size tests of the source stand before them as
they do there.  The opcodes of the `switch` are grouped into instructions as its `case`s are.

An evaluation counts the calls of `checker.CheckSig`, and keeps the count when it fails.
-/
import Stonecoin.ScriptNum

namespace Stonecoin

namespace Interpreter

open Outcomes ScriptError

abbrev Valtype := List UInt8

/-! ### Flags -/

def SCRIPT_VERIFY_P2SH : ℕ := 0x1
def SCRIPT_VERIFY_STRICTENC : ℕ := 0x2
def SCRIPT_VERIFY_DERSIG : ℕ := 0x4
def SCRIPT_VERIFY_LOW_S : ℕ := 0x8
def SCRIPT_VERIFY_NULLDUMMY : ℕ := 0x10
def SCRIPT_VERIFY_SIGPUSHONLY : ℕ := 0x20
def SCRIPT_VERIFY_MINIMALDATA : ℕ := 0x40
def SCRIPT_VERIFY_DISCOURAGE_UPGRADABLE_NOPS : ℕ := 0x80
def SCRIPT_VERIFY_CLEANSTACK : ℕ := 0x100
def SCRIPT_VERIFY_CHECKLOCKTIMEVERIFY : ℕ := 0x200
def SCRIPT_VERIFY_CHECKSEQUENCEVERIFY : ℕ := 0x400

def has (flags flag : ℕ) : Bool := flags &&& flag ≠ 0

def MAX_SCRIPT_ELEMENT_SIZE : ℕ := 520
def MAX_OPS_PER_SCRIPT : ℕ := 201

/-! ### What the interpreter calls -/

abbrev Hash32 := { vch : Valtype // vch.length = 32 }

/-- The hash functions, and `CPubKey::CheckLowS`. -/
structure ScriptCrypto where
  ripemd160 : Valtype → UInt160
  sha1 : Valtype → UInt160
  sha256 : Valtype → Hash32
  hash160 : Valtype → UInt160
  hash256 : Valtype → Hash32
  checkLowS : Valtype → Bool

structure BaseSignatureChecker where
  checkSig : Valtype → Valtype → CScript → Bool
  checkLockTime : ℤ → Bool
  checkSequence : ℤ → Bool

/-- The methods of the base class refuse everything. -/
def BaseSignatureChecker.base : BaseSignatureChecker where
  checkSig _ _ _ := false
  checkLockTime _ := false
  checkSequence _ := false

/-- Hashes for scripts that use none. -/
def nullCrypto : ScriptCrypto where
  ripemd160 _ := UInt160.null
  sha1 _ := UInt160.null
  sha256 _ := ⟨List.replicate 32 0, List.length_replicate⟩
  hash160 _ := UInt160.null
  hash256 _ := ⟨List.replicate 32 0, List.length_replicate⟩
  checkLowS _ := true

/-! ### Encodings of signatures and keys -/

def isCompressedOrUncompressedPubKey (vchPubKey : Valtype) : Bool :=
  if vchPubKey.length < 33 then false
  else if vchPubKey.getD 0 0 = 0x04 then vchPubKey.length = 65
  else if vchPubKey.getD 0 0 = 0x02 ∨ vchPubKey.getD 0 0 = 0x03 then vchPubKey.length = 33
  else false

/-- `IsValidSignatureEncoding`: every byte that is read is there, by the tests before. -/
def isValidSignatureEncoding (sig : Valtype) : Bool :=
  if sig.length < 9 then false
  else if 73 < sig.length then false
  else if sig.getD 0 0 ≠ 0x30 then false
  else if (sig.getD 1 0).toNat ≠ sig.length - 3 then false
  else
    let lenR := (sig.getD 3 0).toNat
    if sig.length ≤ 5 + lenR then false
    else
      let lenS := (sig.getD (5 + lenR) 0).toNat
      if lenR + lenS + 7 ≠ sig.length then false
      else if sig.getD 2 0 ≠ 0x02 then false
      else if lenR = 0 then false
      else if sig.getD 4 0 &&& 0x80 ≠ 0 then false
      else if 1 < lenR ∧ sig.getD 4 0 = 0x00 ∧ sig.getD 5 0 &&& 0x80 = 0 then false
      else if sig.getD (lenR + 4) 0 ≠ 0x02 then false
      else if lenS = 0 then false
      else if sig.getD (lenR + 6) 0 &&& 0x80 ≠ 0 then false
      else if 1 < lenS ∧ sig.getD (lenR + 6) 0 = 0x00 ∧ sig.getD (lenR + 7) 0 &&& 0x80 = 0 then
        false
      else true

def isDefinedHashtypeSignature (vchSig : Valtype) : Bool :=
  if vchSig.isEmpty then false
  else
    let nHashType := vchSig.getLastD 0 &&& 0x7f
    ¬ (nHashType < 1 ∨ 3 < nHashType)

variable (crypto : ScriptCrypto) (flags : ℕ) (checker : BaseSignatureChecker)

def isLowDERSignature (vchSig : Valtype) : Except Stop Unit :=
  if !isValidSignatureEncoding vchSig then .error (.error SCRIPT_ERR_SIG_DER)
  else if !crypto.checkLowS vchSig.dropLast then .error (.error SCRIPT_ERR_SIG_HIGH_S)
  else .ok ()

def checkSignatureEncoding (vchSig : Valtype) : Except Stop Unit :=
  if vchSig.isEmpty then .ok ()
  else if has flags (SCRIPT_VERIFY_DERSIG ||| SCRIPT_VERIFY_LOW_S ||| SCRIPT_VERIFY_STRICTENC)
      && !isValidSignatureEncoding vchSig then .error (.error SCRIPT_ERR_SIG_DER)
  else do
    if has flags SCRIPT_VERIFY_LOW_S then isLowDERSignature crypto vchSig else .ok ()
    if has flags SCRIPT_VERIFY_STRICTENC && !isDefinedHashtypeSignature vchSig then
      .error (.error SCRIPT_ERR_SIG_HASHTYPE)
    else .ok ()

def checkPubKeyEncoding (vchPubKey : Valtype) : Except Stop Unit :=
  if has flags SCRIPT_VERIFY_STRICTENC && !isCompressedOrUncompressedPubKey vchPubKey then
    .error (.error SCRIPT_ERR_PUBKEYTYPE)
  else .ok ()

def checkMinimalPush (data : Valtype) (opcode : UInt8) : Bool :=
  if data.length = 0 then opcode = 0
  else if data.length = 1 ∧ 1 ≤ data.getD 0 0 ∧ data.getD 0 0 ≤ 16 then
    opcode.toNat = OP_1.toNat + ((data.getD 0 0).toNat - 1)
  else if data.length = 1 ∧ data.getD 0 0 = 0x81 then opcode = 0x4f
  else if data.length ≤ 75 then opcode.toNat = data.length
  else if data.length ≤ 255 then opcode = OP_PUSHDATA1
  else if data.length ≤ 65535 then opcode = OP_PUSHDATA2
  else true

/-! ### The script a signature signs -/

def pushScript (b : Valtype) : CScript :=
  if b.length < OP_PUSHDATA1.toNat then UInt8.ofNat b.length :: b
  else if b.length ≤ 0xff then OP_PUSHDATA1 :: UInt8.ofNat b.length :: b
  else if b.length ≤ 0xffff then OP_PUSHDATA2 :: (writeLE 2 b.length ++ b)
  else OP_PUSHDATA4 :: (writeLE 4 b.length ++ b)

/-- The inner loop of `FindAndDelete`: occurrences at the front are skipped. -/
def skipMatches (b : CScript) : ℕ → CScript → CScript
  | 0, pc => pc
  | fuel + 1, pc => if b.isPrefixOf pc then skipMatches b fuel (pc.drop b.length) else pc

/-- The outer loop, over the opcodes. -/
def findAndDeleteLoop (b : CScript) : ℕ → CScript → CScript
  | 0, pc => pc
  | fuel + 1, pc =>
    let pc := skipMatches b pc.length pc
    match getOp pc with
    | none => pc
    | some (_, _, rest) => pc.take (pc.length - rest.length) ++ findAndDeleteLoop b fuel rest

def findAndDelete (script b : CScript) : CScript :=
  if b.isEmpty then script else findAndDeleteLoop b (script.length + 1) script

theorem skipMatches_fuel {b : CScript} (hb : b ≠ []) : ∀ {f₁ f₂ : ℕ} {pc : CScript},
    pc.length ≤ f₁ → pc.length ≤ f₂ → skipMatches b f₁ pc = skipMatches b f₂ pc := by
  have hpos : 0 < b.length := List.length_pos_iff.mpr hb
  have hnil : ∀ f, skipMatches b f [] = [] := by
    intro f
    induction f with
    | zero => rfl
    | succ f ih =>
      rw [skipMatches, List.drop_nil, ih]
      split <;> rfl
  intro f₁
  induction f₁ with
  | zero =>
    intro f₂ pc h₁ _
    obtain rfl := List.length_eq_zero_iff.mp (Nat.le_zero.mp h₁)
    rw [hnil, hnil]
  | succ f₁ ih =>
    intro f₂ pc h₁ h₂
    cases f₂ with
    | zero =>
      obtain rfl := List.length_eq_zero_iff.mp (Nat.le_zero.mp h₂)
      rw [hnil, hnil]
    | succ f₂ =>
      rw [skipMatches, skipMatches]
      have hdrop : (pc.drop b.length).length = pc.length - b.length := List.length_drop
      split
      · exact ih (by omega) (by omega)
      · rfl

theorem length_skipMatches_le {b : CScript} : ∀ {f : ℕ} {pc : CScript},
    (skipMatches b f pc).length ≤ pc.length := by
  intro f
  induction f with
  | zero => exact fun {pc} => le_rfl
  | succ f ih =>
    intro pc
    rw [skipMatches]
    split
    · refine ih.trans ?_
      rw [List.length_drop]
      exact Nat.sub_le _ _
    · exact le_rfl

theorem findAndDeleteLoop_fuel {b : CScript} : ∀ {f₁ f₂ : ℕ} {pc : CScript},
    pc.length < f₁ → pc.length < f₂ → findAndDeleteLoop b f₁ pc = findAndDeleteLoop b f₂ pc := by
  intro f₁
  induction f₁ with
  | zero => exact fun h₁ => absurd h₁ (Nat.not_lt_zero _)
  | succ f₁ ih =>
    intro f₂ pc h₁ h₂
    cases f₂ with
    | zero => exact absurd h₂ (Nat.not_lt_zero _)
    | succ f₂ =>
      simp only [findAndDeleteLoop]
      have hle : (skipMatches b pc.length pc).length ≤ pc.length := length_skipMatches_le
      rcases hop : getOp (skipMatches b pc.length pc) with - | ⟨opcode, vch, rest⟩
      · rfl
      · have hlt := getOp_length_lt hop
        exact congrArg _ (ih (by omega) (by omega))

/-! ### Stacks -/

def stacktop (stack : List Valtype) (i : ℕ) : Except Stop Valtype :=
  match stack[i - 1]? with
  | none => .error (.thrown .out_of_range)
  | some vch => .ok vch

def popstack : List Valtype → Except Stop (List Valtype)
  | [] => .error (.thrown (.runtime_error "popstack(): stack empty"))
  | _ :: stack => .ok stack

/-- `popstack`, several times. -/
def popstacks : ℕ → List Valtype → Except Stop (List Valtype)
  | 0, stack => .ok stack
  | n + 1, stack => popstack stack >>= popstacks n

def eraseTop (stack : List Valtype) (i : ℕ) : Except Stop (List Valtype) :=
  if 0 < i ∧ i ≤ stack.length then .ok (stack.eraseIdx (i - 1)) else .error (.fault .iterator)

def insertTop (stack : List Valtype) (i : ℕ) (vch : Valtype) : Except Stop (List Valtype) :=
  if i ≤ stack.length then .ok (stack.take i ++ vch :: stack.drop i)
  else .error (.fault .iterator)

def swapTop (stack : List Valtype) (i j : ℕ) : Except Stop (List Valtype) := do
  let a ← stacktop stack i
  let b ← stacktop stack j
  .ok ((stack.set (i - 1) b).set (j - 1) a)

def vchFalse : Valtype := []
def vchTrue : Valtype := [1]

/-- The value pushed for a truth value. -/
def vchBool (f : Bool) : Valtype := if f then vchTrue else vchFalse

def needs (stack : List Valtype) (n : ℕ) (r : Except Stop (List Valtype)) :
    Except Stop (List Valtype) :=
  if stack.length < n then .error (.error SCRIPT_ERR_INVALID_STACK_OPERATION) else r

/-! ### Instructions -/

inductive UnaryOp
  | OP_1ADD
  | OP_1SUB
  | OP_NEGATE
  | OP_ABS
  | OP_NOT
  | OP_0NOTEQUAL
deriving DecidableEq, Repr

inductive BinaryOp
  | OP_ADD
  | OP_SUB
  | OP_BOOLAND
  | OP_BOOLOR
  | OP_NUMEQUAL
  | OP_NUMEQUALVERIFY
  | OP_NUMNOTEQUAL
  | OP_LESSTHAN
  | OP_GREATERTHAN
  | OP_LESSTHANOREQUAL
  | OP_GREATERTHANOREQUAL
  | OP_MIN
  | OP_MAX
deriving DecidableEq, Repr

inductive HashOp
  | OP_RIPEMD160
  | OP_SHA1
  | OP_SHA256
  | OP_HASH160
  | OP_HASH256
deriving DecidableEq, Repr

/-- The stack operations that have neither operands nor variants. -/
inductive PlainOp
  | OP_2DROP
  | OP_2DUP
  | OP_3DUP
  | OP_2OVER
  | OP_2ROT
  | OP_2SWAP
  | OP_IFDUP
  | OP_DEPTH
  | OP_DROP
  | OP_DUP
  | OP_NIP
  | OP_OVER
  | OP_ROT
  | OP_SWAP
  | OP_TUCK
  | OP_SIZE
deriving DecidableEq, Repr

/-- The `case`s of the `switch`; `VERIFY` and `NOT` variants have a flag. -/
inductive Instr
  | pushNumber (n : ℤ)
  | OP_NOP
  | OP_CHECKLOCKTIMEVERIFY
  | OP_CHECKSEQUENCEVERIFY
  | upgradableNop
  | OP_IF (fNot : Bool)
  | OP_ELSE
  | OP_ENDIF
  | OP_VERIFY
  | OP_RETURN
  | OP_TOALTSTACK
  | OP_FROMALTSTACK
  | plain (op : PlainOp)
  | OP_PICK (fRoll : Bool)
  | OP_EQUAL (fVerify : Bool)
  | unary (op : UnaryOp)
  | binary (op : BinaryOp)
  | OP_WITHIN
  | hash (op : HashOp)
  | OP_CODESEPARATOR
  | OP_CHECKSIG (fVerify : Bool)
  | OP_CHECKMULTISIG (fVerify : Bool)
  | bad
deriving DecidableEq, Repr

/-- The `case` of an opcode, by its number in `enum opcodetype`. -/
def decodeOp (opcode : UInt8) : Instr :=
  if OP_1 ≤ opcode ∧ opcode ≤ OP_16 then .pushNumber (opcode.toNat - (OP_1.toNat - 1 : ℤ))
  else
    match opcode.toNat with
    | 0x4f => .pushNumber (-1)
    | 0x61 => .OP_NOP
    | 0x63 => .OP_IF false
    | 0x64 => .OP_IF true
    | 0x67 => .OP_ELSE
    | 0x68 => .OP_ENDIF
    | 0x69 => .OP_VERIFY
    | 0x6a => .OP_RETURN
    | 0x6b => .OP_TOALTSTACK
    | 0x6c => .OP_FROMALTSTACK
    | 0x6d => .plain .OP_2DROP
    | 0x6e => .plain .OP_2DUP
    | 0x6f => .plain .OP_3DUP
    | 0x70 => .plain .OP_2OVER
    | 0x71 => .plain .OP_2ROT
    | 0x72 => .plain .OP_2SWAP
    | 0x73 => .plain .OP_IFDUP
    | 0x74 => .plain .OP_DEPTH
    | 0x75 => .plain .OP_DROP
    | 0x76 => .plain .OP_DUP
    | 0x77 => .plain .OP_NIP
    | 0x78 => .plain .OP_OVER
    | 0x79 => .OP_PICK false
    | 0x7a => .OP_PICK true
    | 0x7b => .plain .OP_ROT
    | 0x7c => .plain .OP_SWAP
    | 0x7d => .plain .OP_TUCK
    | 0x82 => .plain .OP_SIZE
    | 0x87 => .OP_EQUAL false
    | 0x88 => .OP_EQUAL true
    | 0x8b => .unary .OP_1ADD
    | 0x8c => .unary .OP_1SUB
    | 0x8f => .unary .OP_NEGATE
    | 0x90 => .unary .OP_ABS
    | 0x91 => .unary .OP_NOT
    | 0x92 => .unary .OP_0NOTEQUAL
    | 0x93 => .binary .OP_ADD
    | 0x94 => .binary .OP_SUB
    | 0x9a => .binary .OP_BOOLAND
    | 0x9b => .binary .OP_BOOLOR
    | 0x9c => .binary .OP_NUMEQUAL
    | 0x9d => .binary .OP_NUMEQUALVERIFY
    | 0x9e => .binary .OP_NUMNOTEQUAL
    | 0x9f => .binary .OP_LESSTHAN
    | 0xa0 => .binary .OP_GREATERTHAN
    | 0xa1 => .binary .OP_LESSTHANOREQUAL
    | 0xa2 => .binary .OP_GREATERTHANOREQUAL
    | 0xa3 => .binary .OP_MIN
    | 0xa4 => .binary .OP_MAX
    | 0xa5 => .OP_WITHIN
    | 0xa6 => .hash .OP_RIPEMD160
    | 0xa7 => .hash .OP_SHA1
    | 0xa8 => .hash .OP_SHA256
    | 0xa9 => .hash .OP_HASH160
    | 0xaa => .hash .OP_HASH256
    | 0xab => .OP_CODESEPARATOR
    | 0xac => .OP_CHECKSIG false
    | 0xad => .OP_CHECKSIG true
    | 0xae => .OP_CHECKMULTISIG false
    | 0xaf => .OP_CHECKMULTISIG true
    | 0xb0 => .upgradableNop
    | 0xb1 => .OP_CHECKLOCKTIMEVERIFY
    | 0xb2 => .OP_CHECKSEQUENCEVERIFY
    | 0xb3 => .upgradableNop
    | 0xb4 => .upgradableNop
    | 0xb5 => .upgradableNop
    | 0xb6 => .upgradableNop
    | 0xb7 => .upgradableNop
    | 0xb8 => .upgradableNop
    | 0xb9 => .upgradableNop
    | _ => .bad

/-- The disabled opcodes: `OP_CAT` to `OP_RIGHT`, `OP_INVERT` to `OP_XOR`, `OP_2MUL`, `OP_2DIV`
and `OP_MUL` to `OP_RSHIFT`. -/
def isDisabled (opcode : UInt8) : Bool :=
  opcode.toNat ∈ [0x7e, 0x7f, 0x80, 0x81, 0x83, 0x84, 0x85, 0x86, 0x8d, 0x8e,
    0x95, 0x96, 0x97, 0x98, 0x99]

/-! ### Operations on the stack alone -/

def fRequireMinimal : Bool := has flags SCRIPT_VERIFY_MINIMALDATA

def numTop (stack : List Valtype) (i nMaxNumSize : ℕ) : Except Stop ℤ := do
  let vch ← stacktop stack i
  scriptNum vch (fRequireMinimal flags) nMaxNumSize

def numBool (b : Bool) : ℤ := if b then 1 else 0

def unaryNum (op : UnaryOp) (bn : ℤ) : Except Stop ℤ :=
  match op with
  | .OP_1ADD => scriptNumAddAssign bn 1
  | .OP_1SUB => scriptNumSubAssign bn 1
  | .OP_NEGATE => scriptNumNeg bn
  | .OP_ABS => if bn < 0 then scriptNumNeg bn else .ok bn
  | .OP_NOT => .ok (numBool (bn = 0))
  | .OP_0NOTEQUAL => .ok (numBool (bn ≠ 0))

def binaryNum (op : BinaryOp) (bn1 bn2 : ℤ) : Except Stop ℤ :=
  match op with
  | .OP_ADD => int64 (bn1 + bn2)
  | .OP_SUB => int64 (bn1 - bn2)
  | .OP_BOOLAND => .ok (numBool (bn1 ≠ 0 ∧ bn2 ≠ 0))
  | .OP_BOOLOR => .ok (numBool (bn1 ≠ 0 ∨ bn2 ≠ 0))
  | .OP_NUMEQUAL => .ok (numBool (bn1 = bn2))
  | .OP_NUMEQUALVERIFY => .ok (numBool (bn1 = bn2))
  | .OP_NUMNOTEQUAL => .ok (numBool (bn1 ≠ bn2))
  | .OP_LESSTHAN => .ok (numBool (bn1 < bn2))
  | .OP_GREATERTHAN => .ok (numBool (bn1 > bn2))
  | .OP_LESSTHANOREQUAL => .ok (numBool (bn1 ≤ bn2))
  | .OP_GREATERTHANOREQUAL => .ok (numBool (bn1 ≥ bn2))
  | .OP_MIN => .ok (if bn1 < bn2 then bn1 else bn2)
  | .OP_MAX => .ok (if bn1 > bn2 then bn1 else bn2)

def hashValue (op : HashOp) (vch : Valtype) : Valtype :=
  match op with
  | .OP_RIPEMD160 => (crypto.ripemd160 vch).bytes
  | .OP_SHA1 => (crypto.sha1 vch).bytes
  | .OP_SHA256 => (crypto.sha256 vch).val
  | .OP_HASH160 => (crypto.hash160 vch).bytes
  | .OP_HASH256 => (crypto.hash256 vch).val

def plainOp (op : PlainOp) (stack : List Valtype) : Except Stop (List Valtype) :=
  match op with
  | .OP_2DROP => needs stack 2 do
    let stack ← popstack stack
    popstack stack
  | .OP_2DUP => needs stack 2 do
    let vch1 ← stacktop stack 2
    let vch2 ← stacktop stack 1
    .ok (vch2 :: vch1 :: stack)
  | .OP_3DUP => needs stack 3 do
    let vch1 ← stacktop stack 3
    let vch2 ← stacktop stack 2
    let vch3 ← stacktop stack 1
    .ok (vch3 :: vch2 :: vch1 :: stack)
  | .OP_2OVER => needs stack 4 do
    let vch1 ← stacktop stack 4
    let vch2 ← stacktop stack 3
    .ok (vch2 :: vch1 :: stack)
  | .OP_2ROT => needs stack 6 do
    let vch1 ← stacktop stack 6
    let vch2 ← stacktop stack 5
    -- `erase(end() - 6, end() - 4)`
    let stack ← eraseTop stack 6
    let stack ← eraseTop stack 5
    .ok (vch2 :: vch1 :: stack)
  | .OP_2SWAP => needs stack 4 do
    let stack ← swapTop stack 4 2
    swapTop stack 3 1
  | .OP_IFDUP => needs stack 1 do
    let vch ← stacktop stack 1
    .ok (if castToBool vch then vch :: stack else stack)
  | .OP_DEPTH => do
    let vch ← getvch stack.length
    .ok (vch :: stack)
  | .OP_DROP => needs stack 1 (popstack stack)
  | .OP_DUP => needs stack 1 do
    let vch ← stacktop stack 1
    .ok (vch :: stack)
  | .OP_NIP => needs stack 2 (eraseTop stack 2)
  | .OP_OVER => needs stack 2 do
    let vch ← stacktop stack 2
    .ok (vch :: stack)
  | .OP_ROT => needs stack 3 do
    let stack ← swapTop stack 3 2
    swapTop stack 2 1
  | .OP_SWAP => needs stack 2 (swapTop stack 2 1)
  | .OP_TUCK => needs stack 2 do
    let vch ← stacktop stack 1
    insertTop stack 2 vch
  | .OP_SIZE => needs stack 1 do
    let vch ← stacktop stack 1
    let size ← getvch vch.length
    .ok (size :: stack)

def opPick (fRoll : Bool) (stack : List Valtype) : Except Stop (List Valtype) :=
  needs stack 2 do
    let bn ← numTop flags stack 1 nDefaultMaxNumSize
    let n := getint bn
    let stack ← popstack stack
    if n < 0 ∨ (stack.length : ℤ) ≤ n then .error (.error SCRIPT_ERR_INVALID_STACK_OPERATION)
    else do
      let vch ← stacktop stack (n.toNat + 1)
      let stack ← if fRoll then eraseTop stack (n.toNat + 1) else .ok stack
      .ok (vch :: stack)

/-- What a `VERIFY` variant does with the result it pushed. -/
def verifyTop (fVerify f : Bool) (e : ScriptError) (stack : List Valtype) :
    Except Stop (List Valtype) :=
  if fVerify then if f then popstack stack else .error (.error e) else .ok stack

def opEqual (fVerify : Bool) (stack : List Valtype) : Except Stop (List Valtype) :=
  needs stack 2 do
    let vch1 ← stacktop stack 2
    let vch2 ← stacktop stack 1
    let stack ← popstacks 2 stack
    verifyTop fVerify (vch1 = vch2) SCRIPT_ERR_EQUALVERIFY (vchBool (vch1 = vch2) :: stack)

def opUnary (op : UnaryOp) (stack : List Valtype) : Except Stop (List Valtype) :=
  needs stack 1 do
    let bn ← numTop flags stack 1 nDefaultMaxNumSize
    let bn ← unaryNum op bn
    let stack ← popstack stack
    let vch ← getvch bn
    .ok (vch :: stack)

def opBinary (op : BinaryOp) (stack : List Valtype) : Except Stop (List Valtype) :=
  needs stack 2 do
    let bn1 ← numTop flags stack 2 nDefaultMaxNumSize
    let bn2 ← numTop flags stack 1 nDefaultMaxNumSize
    let bn ← binaryNum op bn1 bn2
    let stack ← popstacks 2 stack
    let vch ← getvch bn
    verifyTop (op = .OP_NUMEQUALVERIFY) (castToBool vch) SCRIPT_ERR_NUMEQUALVERIFY (vch :: stack)

def opWithin (stack : List Valtype) : Except Stop (List Valtype) :=
  needs stack 3 do
    let bn1 ← numTop flags stack 3 nDefaultMaxNumSize
    let bn2 ← numTop flags stack 2 nDefaultMaxNumSize
    let bn3 ← numTop flags stack 1 nDefaultMaxNumSize
    let stack ← popstacks 3 stack
    .ok (vchBool (bn2 ≤ bn1 ∧ bn1 < bn3) :: stack)

def opHash (op : HashOp) (stack : List Valtype) : Except Stop (List Valtype) :=
  needs stack 1 do
    let vch ← stacktop stack 1
    let stack ← popstack stack
    .ok (hashValue crypto op vch :: stack)

def opVerify (stack : List Valtype) : Except Stop (List Valtype) :=
  needs stack 1 do
    let vch ← stacktop stack 1
    if castToBool vch then popstack stack else .error (.error SCRIPT_ERR_VERIFY)

def upgradableNop (stack : List Valtype) : Except Stop (List Valtype) :=
  if has flags SCRIPT_VERIFY_DISCOURAGE_UPGRADABLE_NOPS then
    .error (.error SCRIPT_ERR_DISCOURAGE_UPGRADABLE_NOPS)
  else .ok stack

/-- `OP_CHECKLOCKTIMEVERIFY`; its operand may have five bytes. -/
def opCheckLockTimeVerify (stack : List Valtype) : Except Stop (List Valtype) :=
  if !has flags SCRIPT_VERIFY_CHECKLOCKTIMEVERIFY then upgradableNop flags stack
  else
    needs stack 1 do
      let nLockTime ← numTop flags stack 1 5
      if nLockTime < 0 then .error (.error SCRIPT_ERR_NEGATIVE_LOCKTIME)
      else if !checker.checkLockTime nLockTime then
        .error (.error SCRIPT_ERR_UNSATISFIED_LOCKTIME)
      else .ok stack

/-- `OP_CHECKSEQUENCEVERIFY`; an operand with the disable flag makes it a NOP. -/
def opCheckSequenceVerify (stack : List Valtype) : Except Stop (List Valtype) :=
  if !has flags SCRIPT_VERIFY_CHECKSEQUENCEVERIFY then upgradableNop flags stack
  else
    needs stack 1 do
      let nSequence ← numTop flags stack 1 5
      if nSequence < 0 then .error (.error SCRIPT_ERR_NEGATIVE_LOCKTIME)
      else if nSequence.toNat &&& 0x80000000 ≠ 0 then .ok stack
      else if !checker.checkSequence nSequence then
        .error (.error SCRIPT_ERR_UNSATISFIED_LOCKTIME)
      else .ok stack

/-! ### The state of the loop -/

structure EvalState where
  stack : List Valtype
  altstack : List Valtype
  /-- The last condition comes first. -/
  vfExec : List Bool
  nOpCount : ℕ
  /-- The script from `pbegincodehash` on. -/
  codehash : CScript
  /-- The calls of `checker.CheckSig` so far. -/
  nCheckSig : ℕ

/-- A stop, with the calls of `checker.CheckSig` until then. -/
structure Fail where
  stop : Stop
  nCheckSig : ℕ
deriving DecidableEq, Repr

def withCount {α : Type} (n : ℕ) : Except Stop α → Except Fail α
  | .ok a => .ok a
  | .error e => .error ⟨e, n⟩

namespace EvalState

variable (σ : EvalState)

/-- `return set_error(serror, e)`. -/
def fail {α : Type} (e : ScriptError) : Except Fail α := .error ⟨.error e, σ.nCheckSig⟩

def onStack (f : List Valtype → Except Stop (List Valtype)) : Except Fail EvalState := do
  let stack ← withCount σ.nCheckSig (f σ.stack)
  .ok { σ with stack := stack }

def opIf (fNot fExec : Bool) : Except Fail EvalState :=
  if fExec then
    if σ.stack.length < 1 then σ.fail SCRIPT_ERR_UNBALANCED_CONDITIONAL
    else do
      let vch ← withCount σ.nCheckSig (stacktop σ.stack 1)
      let stack ← withCount σ.nCheckSig (popstack σ.stack)
      .ok { σ with stack := stack, vfExec := (castToBool vch ^^ fNot) :: σ.vfExec }
  else .ok { σ with vfExec := false :: σ.vfExec }

def opElse : Except Fail EvalState :=
  match σ.vfExec with
  | [] => σ.fail SCRIPT_ERR_UNBALANCED_CONDITIONAL
  | f :: vfExec => .ok { σ with vfExec := (!f) :: vfExec }

def opEndIf : Except Fail EvalState :=
  match σ.vfExec with
  | [] => σ.fail SCRIPT_ERR_UNBALANCED_CONDITIONAL
  | _ :: vfExec => .ok { σ with vfExec := vfExec }

def opToAltStack : Except Fail EvalState :=
  if σ.stack.length < 1 then σ.fail SCRIPT_ERR_INVALID_STACK_OPERATION
  else do
    let vch ← withCount σ.nCheckSig (stacktop σ.stack 1)
    let stack ← withCount σ.nCheckSig (popstack σ.stack)
    .ok { σ with stack := stack, altstack := vch :: σ.altstack }

def opFromAltStack : Except Fail EvalState :=
  if σ.altstack.length < 1 then σ.fail SCRIPT_ERR_INVALID_ALTSTACK_OPERATION
  else do
    let vch ← withCount σ.nCheckSig (stacktop σ.altstack 1)
    let altstack ← withCount σ.nCheckSig (popstack σ.altstack)
    .ok { σ with stack := vch :: σ.stack, altstack := altstack }

def opCheckSig (fVerify : Bool) : Except Fail EvalState :=
  if σ.stack.length < 2 then σ.fail SCRIPT_ERR_INVALID_STACK_OPERATION
  else do
    let vchSig ← withCount σ.nCheckSig (stacktop σ.stack 2)
    let vchPubKey ← withCount σ.nCheckSig (stacktop σ.stack 1)
    let scriptCode := findAndDelete σ.codehash (pushScript vchSig)
    withCount σ.nCheckSig (checkSignatureEncoding crypto flags vchSig)
    withCount σ.nCheckSig (checkPubKeyEncoding flags vchPubKey)
    let fSuccess := checker.checkSig vchSig vchPubKey scriptCode
    let nCheckSig := σ.nCheckSig + 1
    let stack ← withCount nCheckSig (popstacks 2 σ.stack)
    let stack ← withCount nCheckSig
      (verifyTop fVerify fSuccess SCRIPT_ERR_CHECKSIGVERIFY (vchBool fSuccess :: stack))
    .ok { σ with stack := stack, nCheckSig := nCheckSig }

end EvalState

/-- The signatures are dropped from the script that is signed. -/
def dropSigs (stack : List Valtype) (isig : ℕ) : ℕ → CScript → Except Stop CScript
  | 0, scriptCode => .ok scriptCode
  | n + 1, scriptCode => do
    let scriptCode ← dropSigs stack isig n scriptCode
    let vchSig ← stacktop stack (isig + n)
    .ok (findAndDelete scriptCode (pushScript vchSig))

/-- The loop over signatures and keys, with `nKeysCount` and `nSigsCount`; the result is
`fSuccess` and the number of calls.  There are never more signatures than keys. -/
def multiSigLoop (stack : List Valtype) (scriptCode : CScript) :
    ℕ → ℕ → ℕ → ℕ → ℕ → Except Fail (Bool × ℕ)
  | _, 0, _, _, nCheckSig => .ok (true, nCheckSig)
  | 0, _ + 1, _, _, nCheckSig => .ok (false, nCheckSig)
  | nKeysCount + 1, nSigsCount + 1, isig, ikey, nCheckSig => do
    let vchSig ← withCount nCheckSig (stacktop stack isig)
    let vchPubKey ← withCount nCheckSig (stacktop stack ikey)
    withCount nCheckSig (checkSignatureEncoding crypto flags vchSig)
    withCount nCheckSig (checkPubKeyEncoding flags vchPubKey)
    let fOk := checker.checkSig vchSig vchPubKey scriptCode
    let nSigsLeft := if fOk then nSigsCount else nSigsCount + 1
    -- more signatures than keys left: too many have failed
    if nKeysCount < nSigsLeft then .ok (false, nCheckSig + 1)
    else
      multiSigLoop stack scriptCode nKeysCount nSigsLeft (if fOk then isig + 1 else isig)
        (ikey + 1) (nCheckSig + 1)

/-- What `OP_CHECKMULTISIG` does behind the loop: `i - 1` arguments and the dummy go. -/
def multiSigClean (i : ℕ) (fVerify fSuccess : Bool) (stack : List Valtype) :
    Except Stop (List Valtype) := do
  let stack ← popstacks (i - 1) stack
  needs stack 1 do
    let dummy ← stacktop stack 1
    if has flags SCRIPT_VERIFY_NULLDUMMY && !dummy.isEmpty then
      .error (.error SCRIPT_ERR_SIG_NULLDUMMY)
    else do
      let stack ← popstack stack
      verifyTop fVerify fSuccess SCRIPT_ERR_CHECKMULTISIGVERIFY (vchBool fSuccess :: stack)

/-- The signatures of `OP_CHECKMULTISIG`, once the keys are counted; `i` is the place of the
number of signatures. -/
def EvalState.multiSigs (σ : EvalState) (fVerify : Bool) (nKeysCount i : ℕ) :
    Except Fail EvalState := do
  let bn ← withCount σ.nCheckSig (numTop flags σ.stack i nDefaultMaxNumSize)
  if getint bn < 0 ∨ (nKeysCount : ℤ) < getint bn then σ.fail SCRIPT_ERR_SIG_COUNT
  else
    let nSigsCount := (getint bn).toNat
    let isig := i + 1
    let i := isig + nSigsCount
    if σ.stack.length < i then σ.fail SCRIPT_ERR_INVALID_STACK_OPERATION
    else do
      let scriptCode ← withCount σ.nCheckSig (dropSigs σ.stack isig nSigsCount σ.codehash)
      let (fSuccess, nCheckSig) ← multiSigLoop crypto flags checker σ.stack scriptCode
        nKeysCount nSigsCount isig 2 σ.nCheckSig
      let stack ← withCount nCheckSig (multiSigClean flags i fVerify fSuccess σ.stack)
      .ok { σ with stack := stack, nCheckSig := nCheckSig }

def EvalState.opCheckMultiSig (σ : EvalState) (fVerify : Bool) : Except Fail EvalState :=
  if σ.stack.length < 1 then σ.fail SCRIPT_ERR_INVALID_STACK_OPERATION
  else do
    let bn ← withCount σ.nCheckSig (numTop flags σ.stack 1 nDefaultMaxNumSize)
    if getint bn < 0 ∨ (MAX_PUBKEYS_PER_MULTISIG : ℤ) < getint bn then
      σ.fail SCRIPT_ERR_PUBKEY_COUNT
    else
      let nKeysCount := (getint bn).toNat
      let σ := { σ with nOpCount := σ.nOpCount + nKeysCount }
      if MAX_OPS_PER_SCRIPT < σ.nOpCount then σ.fail SCRIPT_ERR_OP_COUNT
      else
        -- the keys start at place 2
        let i := 2 + nKeysCount
        if σ.stack.length < i then σ.fail SCRIPT_ERR_INVALID_STACK_OPERATION
        else σ.multiSigs crypto flags checker fVerify nKeysCount i

/-! ### `EvalScript` -/

/-- The `switch`; `pc` is behind the opcode. -/
def execInstr (instr : Instr) (fExec : Bool) (pc : CScript) (σ : EvalState) :
    Except Fail EvalState :=
  match instr with
  | .pushNumber n => σ.onStack fun stack => do
    let vch ← getvch n
    .ok (vch :: stack)
  | .OP_NOP => .ok σ
  | .OP_CHECKLOCKTIMEVERIFY => σ.onStack (opCheckLockTimeVerify flags checker)
  | .OP_CHECKSEQUENCEVERIFY => σ.onStack (opCheckSequenceVerify flags checker)
  | .upgradableNop => σ.onStack (upgradableNop flags)
  | .OP_IF fNot => σ.opIf fNot fExec
  | .OP_ELSE => σ.opElse
  | .OP_ENDIF => σ.opEndIf
  | .OP_VERIFY => σ.onStack opVerify
  | .OP_RETURN => σ.fail SCRIPT_ERR_OP_RETURN
  | .OP_TOALTSTACK => σ.opToAltStack
  | .OP_FROMALTSTACK => σ.opFromAltStack
  | .plain op => σ.onStack (plainOp op)
  | .OP_PICK fRoll => σ.onStack (opPick flags fRoll)
  | .OP_EQUAL fVerify => σ.onStack (opEqual fVerify)
  | .unary op => σ.onStack (opUnary flags op)
  | .binary op => σ.onStack (opBinary flags op)
  | .OP_WITHIN => σ.onStack (opWithin flags)
  | .hash op => σ.onStack (opHash crypto op)
  | .OP_CODESEPARATOR => .ok { σ with codehash := pc }
  | .OP_CHECKSIG fVerify => σ.opCheckSig crypto flags checker fVerify
  | .OP_CHECKMULTISIG fVerify => σ.opCheckMultiSig crypto flags checker fVerify
  | .bad => σ.fail SCRIPT_ERR_BAD_OPCODE

def OP_IF_BYTE : UInt8 := 0x63
def OP_ENDIF_BYTE : UInt8 := 0x68

/-- A push, an instruction, or nothing where it is not executed. -/
def evalOpcode (opcode : UInt8) (vchPushValue : Valtype) (pc : CScript) (σ : EvalState) :
    Except Fail EvalState :=
  let fExec := σ.vfExec.all id
  if fExec && opcode ≤ OP_PUSHDATA4 then
    if fRequireMinimal flags && !checkMinimalPush vchPushValue opcode then
      σ.fail SCRIPT_ERR_MINIMALDATA
    else .ok { σ with stack := vchPushValue :: σ.stack }
  else if fExec || (OP_IF_BYTE ≤ opcode && opcode ≤ OP_ENDIF_BYTE) then
    execInstr crypto flags checker (decodeOp opcode) fExec pc σ
  else .ok σ

/-- The checks before an opcode is looked at. -/
def countOpcode (opcode : UInt8) (vchPushValue : Valtype) (σ : EvalState) :
    Except Fail EvalState :=
  if MAX_SCRIPT_ELEMENT_SIZE < vchPushValue.length then σ.fail SCRIPT_ERR_PUSH_SIZE
  else
    let σ := if OP_16 < opcode then { σ with nOpCount := σ.nOpCount + 1 } else σ
    if OP_16 < opcode ∧ MAX_OPS_PER_SCRIPT < σ.nOpCount then σ.fail SCRIPT_ERR_OP_COUNT
    else if isDisabled opcode then σ.fail SCRIPT_ERR_DISABLED_OPCODE
    else .ok σ

theorem countOpcode_spec (opcode : UInt8) (vchPushValue : Valtype) (σ : EvalState) :
    Ensures (fun f => f.nCheckSig = σ.nCheckSig) (fun σ' => ∃ n, σ' = { σ with nOpCount := n })
      (countOpcode opcode vchPushValue σ) := by
  have hcount : ∃ n, (if OP_16 < opcode then { σ with nOpCount := σ.nOpCount + 1 } else σ) =
      { σ with nOpCount := n } := by
    split
    · exact ⟨_, rfl⟩
    · exact ⟨σ.nOpCount, rfl⟩
  have hfail : ∀ {P : EvalState → Prop} e,
      Ensures (fun f => f.nCheckSig = σ.nCheckSig) P (σ.fail e) := fun _ => rfl
  unfold countOpcode
  obtain ⟨n, hn⟩ := hcount
  rw [hn]
  apply Ensures.ite (fun _ => hfail _)
  intro _
  apply Ensures.ite (fun _ => hfail _)
  intro _
  apply Ensures.ite (fun _ => hfail _)
  exact fun _ => ⟨n, rfl⟩

/-- One pass of the loop, behind `GetOp`. -/
def evalStep (opcode : UInt8) (vchPushValue : Valtype) (pc : CScript) (σ : EvalState) :
    Except Fail EvalState := do
  let σ ← countOpcode opcode vchPushValue σ
  let σ ← evalOpcode crypto flags checker opcode vchPushValue pc σ
  if 1000 < σ.stack.length + σ.altstack.length then σ.fail SCRIPT_ERR_STACK_SIZE else .ok σ

def evalLoop : ℕ → CScript → EvalState → Except Fail EvalState
  | _, [], σ => .ok σ
  | 0, _ :: _, σ => .error ⟨.fault .unfinished, σ.nCheckSig⟩
  | fuel + 1, b :: bs, σ =>
    match getOp (b :: bs) with
    | none => σ.fail SCRIPT_ERR_BAD_OPCODE
    | some (opcode, vchPushValue, pc) => do
      let σ ← evalStep crypto flags checker opcode vchPushValue pc σ
      evalLoop fuel pc σ

def EvalState.start (stack : List Valtype) (script : CScript) : EvalState :=
  ⟨stack, [], [], 0, script, 0⟩

/-- What `EvalScript` ends with, before the `catch`. -/
structure EvalResult where
  outcome : Except Stop (List Valtype)
  nCheckSig : ℕ

def evalScript (stack : List Valtype) (script : CScript) : EvalResult :=
  if 10000 < script.length then ⟨.error (.error SCRIPT_ERR_SCRIPT_SIZE), 0⟩
  else
    match evalLoop crypto flags checker script.length script (.start stack script) with
    | .error f => ⟨.error f.stop, f.nCheckSig⟩
    | .ok σ =>
      if !σ.vfExec.isEmpty then ⟨.error (.error SCRIPT_ERR_UNBALANCED_CONDITIONAL), σ.nCheckSig⟩
      else ⟨.ok σ.stack, σ.nCheckSig⟩

/-- `catch (...)`: an exception leaves `SCRIPT_ERR_UNKNOWN_ERROR`. -/
def Stop.caught : Stop → Stop
  | .thrown _ => .error SCRIPT_ERR_UNKNOWN_ERROR
  | e => e

/-! ### `VerifyScript` -/

/-- A result with the evaluations that led to it, in their order. -/
structure VerifyResult where
  outcome : Except Stop Unit
  evals : List EvalResult

def checkTop (stack : List Valtype) : Except Stop Unit :=
  match stack with
  | [] => .error (.error SCRIPT_ERR_EVAL_FALSE)
  | vch :: _ => if castToBool vch then .ok () else .error (.error SCRIPT_ERR_EVAL_FALSE)

/-- The check of `SCRIPT_VERIFY_CLEANSTACK`. -/
def checkCleanStack (stack : List Valtype) : Except Stop Unit :=
  if has flags SCRIPT_VERIFY_CLEANSTACK then
    if !has flags SCRIPT_VERIFY_P2SH then .error (.fault .assertion)
    else if stack.length ≠ 1 then .error (.error SCRIPT_ERR_CLEANSTACK)
    else .ok ()
  else .ok ()

def verifyEnd (stack : List Valtype) : Except Stop Unit := do
  checkTop stack
  checkCleanStack flags stack

def verifyRedeem (scriptSig : CScript) (stackCopy : List Valtype) (evals : List EvalResult) :
    VerifyResult :=
  if !isPushOnly scriptSig then ⟨.error (.error SCRIPT_ERR_SIG_PUSHONLY), evals⟩
  else
    match stackCopy with
    -- `assert(!stack.empty())`
    | [] => ⟨.error (.fault .assertion), evals⟩
    | pubKey2 :: stack =>
      let r := evalScript crypto flags checker stack pubKey2
      match r.outcome with
      | .error e => ⟨.error (Stop.caught e), evals ++ [r]⟩
      | .ok stack => ⟨verifyEnd flags stack, evals ++ [r]⟩

def verifyScript (scriptSig scriptPubKey : CScript) : VerifyResult :=
  if has flags SCRIPT_VERIFY_SIGPUSHONLY && !isPushOnly scriptSig then
    ⟨.error (.error SCRIPT_ERR_SIG_PUSHONLY), []⟩
  else
    let r := evalScript crypto flags checker [] scriptSig
    match r.outcome with
    | .error e => ⟨.error (Stop.caught e), [r]⟩
    | .ok stackCopy =>
      let r' := evalScript crypto flags checker stackCopy scriptPubKey
      match r'.outcome with
      | .error e => ⟨.error (Stop.caught e), [r, r']⟩
      | .ok stack =>
        match checkTop stack with
        | .error e => ⟨.error e, [r, r']⟩
        | .ok () =>
          if has flags SCRIPT_VERIFY_P2SH && isPayToScriptHash scriptPubKey then
            verifyRedeem crypto flags checker scriptSig stackCopy [r, r']
          else ⟨checkCleanStack flags stack, [r, r']⟩

end Interpreter

end Stonecoin
