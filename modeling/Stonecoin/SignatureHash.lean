/-
What a signature signs (`SignatureHash` in `interpreter.cpp`), and the reference the tests compare
it with (`SignatureHashOld` in `sighash_tests.cpp`).

`SignatureHash` serializes the transaction as it would be after the changes that the hash type asks
for, without making them; the reference makes the changes in a copy and serializes that.  Both are
given by the bytes that are hashed, or the constant one.

  * `signatureHash_eq_old`: both hash the same bytes.
-/
import Stonecoin.Solver
import Stonecoin.TxFormat

namespace Stonecoin.SignatureHash

open Interpreter

def SIGHASH_NONE : UInt32 := 2
def SIGHASH_SINGLE : UInt32 := 3
def SIGHASH_ANYONECANPAY : UInt32 := 0x80

def OP_CODESEPARATOR : UInt8 := 0xab

/-- What is returned: the hash of some bytes, or the constant one. -/
inductive SigHash
  | one
  | hashOf (bytes : List UInt8)
deriving DecidableEq, Repr

/-- An element that an index in range finds. -/
def nullIn : CTxIn := ⟨⟨0, 0xffffffff⟩, [], 0xffffffff⟩

/-! ### `CTransactionSignatureSerializer` -/

/-- The wrapper, with the fields that its constructor sets. -/
structure Serializer where
  txTo : CTransaction
  scriptCode : CScript
  nIn : ℕ
  fAnyoneCanPay : Bool
  fHashSingle : Bool
  fHashNone : Bool

/-- The constructor. -/
def Serializer.of (txTo : CTransaction) (scriptCode : CScript) (nIn : ℕ) (nHashType : UInt32) :
    Serializer where
  txTo := txTo
  scriptCode := scriptCode
  nIn := nIn
  fAnyoneCanPay := nHashType &&& SIGHASH_ANYONECANPAY ≠ 0
  fHashSingle := nHashType &&& 0x1f = SIGHASH_SINGLE
  fHashNone := nHashType &&& 0x1f = SIGHASH_NONE

/-- The first loop of `SerializeScriptCode`: separators are counted. -/
def countSeparators : ℕ → CScript → ℕ
  | 0, _ => 0
  | fuel + 1, it =>
    match getOp it with
    | none => 0
    | some (opcode, _, rest) =>
      countSeparators fuel rest + if opcode = OP_CODESEPARATOR then 1 else 0

/-- The second loop: what is behind `itBegin` is written up to each separator, then the rest. -/
def writePieces : ℕ → CScript → CScript → List UInt8
  | 0, _, _ => []
  | fuel + 1, itBegin, it =>
    match getOp it with
    | none =>
      -- `it` is where the failing `GetOp` has left it
      if itBegin ≠ [] then itBegin.take (itBegin.length - (getOp2 it).2.2.length) else []
    | some (opcode, _, rest) =>
      if opcode = OP_CODESEPARATOR then
        itBegin.take (itBegin.length - rest.length - 1) ++ writePieces fuel rest rest
      else writePieces fuel itBegin rest

namespace Serializer

variable (s : Serializer)

def serializeScriptCode : List UInt8 :=
  let fuel := s.scriptCode.length + 1
  writeCompactSize (s.scriptCode.length - countSeparators fuel s.scriptCode) ++
    writePieces fuel s.scriptCode s.scriptCode

def serializeInput (nInput : ℕ) : List UInt8 :=
  let nInput := if s.fAnyoneCanPay then s.nIn else nInput
  let txin := s.txTo.vin.getD nInput nullIn
  txin.prevout.write ++
    ((if nInput ≠ s.nIn then writeBytes [] else s.serializeScriptCode) ++
      if nInput ≠ s.nIn ∧ (s.fHashSingle ∨ s.fHashNone) then writeInt 4 0
      else writeLE 4 txin.nSequence)

def serializeOutput (nOutput : ℕ) : List UInt8 :=
  if s.fHashSingle ∧ nOutput ≠ s.nIn then CTxOut.null.write
  else (s.txTo.vout.getD nOutput .null).write

def serialize : List UInt8 :=
  let nInputs := if s.fAnyoneCanPay then 1 else s.txTo.vin.length
  let nOutputs := if s.fHashNone then 0 else if s.fHashSingle then s.nIn + 1 else s.txTo.vout.length
  writeInt 4 s.txTo.nVersion ++
    (writeCompactSize nInputs ++ (List.range nInputs).flatMap s.serializeInput ++
      (writeCompactSize nOutputs ++ (List.range nOutputs).flatMap s.serializeOutput ++
        writeLE 4 s.txTo.nLockTime))

end Serializer

def signatureHash (scriptCode : CScript) (txTo : CTransaction) (nIn : ℕ) (nHashType : UInt32) :
    SigHash :=
  if txTo.vin.length ≤ nIn then .one
  else if nHashType &&& 0x1f = SIGHASH_SINGLE ∧ txTo.vout.length ≤ nIn then .one
  else .hashOf ((Serializer.of txTo scriptCode nIn nHashType).serialize ++
    writeLE 4 nHashType.toNat)

/-! ### The reference -/

def freeOthers (nIn : ℕ) (vin : List CTxIn) : List CTxIn :=
  vin.mapIdx fun i txin => if i ≠ nIn then { txin with nSequence := 0 } else txin

def signatureHashOld (scriptCode : CScript) (txTo : CTransaction) (nIn : ℕ) (nHashType : UInt32) :
    SigHash :=
  if txTo.vin.length ≤ nIn then .one
  else
    let scriptCode := findAndDelete scriptCode [OP_CODESEPARATOR]
    -- blank out other inputs' signatures
    let vin := txTo.vin.map fun txin => { txin with scriptSig := [] }
    let vin := vin.modify nIn fun txin => { txin with scriptSig := scriptCode }
    -- blank out some of the outputs
    let blanked : Option (List CTxIn × List CTxOut) :=
      if nHashType &&& 0x1f = SIGHASH_NONE then some (freeOthers nIn vin, [])
      else if nHashType &&& 0x1f = SIGHASH_SINGLE then
        if txTo.vout.length ≤ nIn then none
        else
          some (freeOthers nIn vin,
            (txTo.vout.take (nIn + 1)).mapIdx fun i txout => if i < nIn then .null else txout)
      else some (vin, txTo.vout)
    match blanked with
    | none => .one
    | some (vin, vout) =>
      -- blank out other inputs completely
      let vin := if nHashType &&& SIGHASH_ANYONECANPAY ≠ 0 then
          (vin.set 0 (vin.getD nIn nullIn)).take 1
        else vin
      let txTmp : CMutableTransaction := ⟨txTo.nVersion, vin, vout, txTo.nLockTime⟩
      .hashOf (txTmp.write ++ writeLE 4 nHashType.toNat)

/-! ### The script code -/

/-- `GetOp` succeeds up to the end. -/
inductive Parsed : CScript → Prop
  | nil : Parsed []
  | cons {s : CScript} {opcode : UInt8} {vch : List UInt8} {rest : CScript} :
      getOp s = some (opcode, vch, rest) → Parsed rest → Parsed s

theorem parsed_of_getOpsLoop : ∀ {fuel : ℕ} {s : CScript},
    (getOpsLoop fuel s).isSome = true → Parsed s := by
  intro fuel
  induction fuel with
  | zero =>
    intro s h
    cases s with
    | nil => exact .nil
    | cons b bs => exact absurd h Bool.false_ne_true
  | succ fuel ih =>
    intro s h
    cases s with
    | nil => exact .nil
    | cons b bs =>
      rw [getOpsLoop] at h
      rcases hget : getOp (b :: bs) with - | ⟨opcode, vch, rest⟩
      · rw [hget] at h
        exact absurd h Bool.false_ne_true
      · rw [hget] at h
        rw [Option.isSome_map] at h
        exact .cons hget (ih h)

theorem separator_eq {s : CScript} {vch : List UInt8} {rest : CScript}
    (h : getOp s = some (OP_CODESEPARATOR, vch, rest)) : s = OP_CODESEPARATOR :: rest := by
  obtain ⟨size, hop, rfl⟩ := getOp_eq_some.mp h
  cases hop with
  | plain => rfl
  | direct hlt => exact absurd hlt (by decide)
  | sized hle => exact absurd hle (by decide)

theorem take_getOp {s : CScript} {opcode : UInt8} {vch : List UInt8} {rest : CScript}
    (h : getOp s = some (opcode, vch, rest)) :
    s = s.take (s.length - rest.length) ++ rest ∧ s.head? = some opcode := by
  obtain ⟨size, -, rfl⟩ := getOp_eq_some.mp h
  have hlength : (opcode :: (size ++ (vch ++ rest))).length - rest.length =
      (opcode :: (size ++ vch)).length := by
    simp only [List.length_cons, List.length_append]
    omega
  have hsplit : opcode :: (size ++ (vch ++ rest)) = opcode :: (size ++ vch) ++ rest := by simp
  refine ⟨?_, rfl⟩
  rw [hlength, hsplit, List.take_left]

/-- Without its separators. -/
def stripped (s : CScript) : CScript := findAndDelete s [OP_CODESEPARATOR]

theorem stripped_nil : stripped [] = [] := rfl

theorem skipMatches_separator (rest : CScript) :
    skipMatches [OP_CODESEPARATOR] (rest.length + 1) (OP_CODESEPARATOR :: rest) =
      skipMatches [OP_CODESEPARATOR] rest.length rest := by
  rw [skipMatches, if_pos (by simp)]
  rfl

theorem stripped_separator (rest : CScript) :
    stripped (OP_CODESEPARATOR :: rest) = stripped rest := by
  have hnext : ∀ fuel, findAndDeleteLoop [OP_CODESEPARATOR] (fuel + 1) (OP_CODESEPARATOR :: rest) =
      findAndDeleteLoop [OP_CODESEPARATOR] (fuel + 1) rest := by
    intro fuel
    rw [findAndDeleteLoop, List.length_cons, skipMatches_separator, findAndDeleteLoop]
  show findAndDeleteLoop [OP_CODESEPARATOR] (rest.length + 1 + 1) _ = _
  rw [hnext]
  exact findAndDeleteLoop_fuel (by omega) (by omega)

theorem stripped_getOp {s : CScript} {opcode : UInt8} {vch : List UInt8} {rest : CScript}
    (h : getOp s = some (opcode, vch, rest)) (hne : opcode ≠ OP_CODESEPARATOR) :
    stripped s = s.take (s.length - rest.length) ++ stripped rest := by
  have hskip : skipMatches [OP_CODESEPARATOR] s.length s = s := by
    obtain ⟨-, hhead⟩ := take_getOp h
    cases s with
    | nil => rfl
    | cons b s =>
      obtain rfl := Option.some.inj hhead
      have hno : List.isPrefixOf [OP_CODESEPARATOR] (b :: s) = false := by
        simp [List.isPrefixOf, Ne.symm hne]
      rw [List.length_cons, skipMatches, hno, if_neg Bool.false_ne_true]
  have hlt := getOp_length_lt h
  show findAndDeleteLoop [OP_CODESEPARATOR] (s.length + 1) s = _
  rw [findAndDeleteLoop, hskip, h]
  exact congrArg _ (findAndDeleteLoop_fuel hlt (Nat.lt_succ_self _))

theorem writePieces_eq {it : CScript} (h : Parsed it) : ∀ {fuel : ℕ} (piece : CScript),
    it.length < fuel → writePieces fuel (piece ++ it) it = piece ++ stripped it := by
  induction h with
  | nil =>
    intro fuel piece hfuel
    obtain ⟨fuel, rfl⟩ : ∃ f, fuel = f + 1 := ⟨fuel - 1, by omega⟩
    have hget : getOp [] = none := rfl
    have hstuck : (getOp2 []).2.2.length = 0 := rfl
    rw [writePieces, hget, List.append_nil, stripped_nil, List.append_nil]
    dsimp only
    rw [hstuck, Nat.sub_zero, List.take_length]
    by_cases hnil : piece = []
    · rw [if_neg (not_not_intro hnil), hnil]
    · rw [if_pos hnil]
  | @cons s opcode vch rest hget hrest ih =>
    intro fuel piece hfuel
    obtain ⟨fuel, rfl⟩ : ∃ f, fuel = f + 1 := ⟨fuel - 1, by omega⟩
    have hlt := getOp_length_lt hget
    rw [writePieces, hget]
    dsimp only
    by_cases hsep : opcode = OP_CODESEPARATOR
    · subst hsep
      obtain rfl := separator_eq hget
      have hlength : (piece ++ OP_CODESEPARATOR :: rest).length - rest.length - 1 =
          piece.length := by
        simp only [List.length_append, List.length_cons]
        omega
      have hpieces := ih [] (show rest.length < fuel by omega)
      rw [if_pos rfl, hlength, List.take_left, stripped_separator]
      exact congrArg _ hpieces
    · have hsplit := (take_getOp hget).1
      have hmove : piece ++ s = (piece ++ s.take (s.length - rest.length)) ++ rest := by
        rw [List.append_assoc, ← hsplit]
      rw [if_neg hsep, hmove, ih _ (by omega), stripped_getOp hget hsep, List.append_assoc]

theorem countSeparators_eq {it : CScript} (h : Parsed it) : ∀ {fuel : ℕ}, it.length < fuel →
    it.length - countSeparators fuel it = (stripped it).length ∧
      countSeparators fuel it ≤ it.length := by
  induction h with
  | nil =>
    intro fuel _
    cases fuel with
    | zero => exact ⟨rfl, Nat.le_refl 0⟩
    | succ fuel => exact ⟨rfl, Nat.le_refl 0⟩
  | @cons s opcode vch rest hget hrest ih =>
    intro fuel hfuel
    obtain ⟨fuel, rfl⟩ : ∃ f, fuel = f + 1 := ⟨fuel - 1, by omega⟩
    have hlt := getOp_length_lt hget
    obtain ⟨hcount, hle⟩ := ih (show rest.length < fuel by omega)
    rw [countSeparators, hget]
    dsimp only
    by_cases hsep : opcode = OP_CODESEPARATOR
    · subst hsep
      obtain rfl := separator_eq hget
      rw [if_pos rfl, stripped_separator, List.length_cons]
      omega
    · rw [if_neg hsep, stripped_getOp hget hsep, List.length_append, List.length_take]
      omega

theorem writeBytes_eq (v : List UInt8) : writeBytes v = writeCompactSize v.length ++ v := by
  rw [writeBytes, writeVector, List.flatMap_singleton']

theorem serializeScriptCode_eq {s : Serializer} (h : (getOps s.scriptCode).isSome = true) :
    s.serializeScriptCode = writeBytes (stripped s.scriptCode) := by
  have hparsed := parsed_of_getOpsLoop h
  have hpieces := writePieces_eq hparsed [] (Nat.lt_succ_self _)
  rw [List.nil_append, List.nil_append] at hpieces
  unfold Serializer.serializeScriptCode
  dsimp only
  rw [(countSeparators_eq hparsed (Nat.lt_succ_self _)).1, hpieces, writeBytes_eq]

/-! ### Inputs and outputs -/

theorem flatMap_eq_range {α : Type} {l : List α} {f : α → List UInt8} {g : ℕ → List UInt8}
    (h : ∀ i a, l[i]? = some a → f a = g i) :
    l.flatMap f = (List.range l.length).flatMap g := by
  have hmap : l.map f = (List.range l.length).map g := by
    refine List.ext_getElem? fun i => ?_
    rw [List.getElem?_map, List.getElem?_map]
    cases hi : l[i]? with
    | none =>
      rw [List.getElem?_eq_none (by simpa using List.getElem?_eq_none_iff.mp hi)]
      rfl
    | some a =>
      have hlt := (List.getElem?_eq_some_iff.mp hi).1
      rw [List.getElem?_range hlt]
      exact congrArg some (h i a hi)
  rw [List.flatMap_def, List.flatMap_def, hmap]

def signedInput (nIn : ℕ) (scriptCode : CScript) (fFree : Bool) (i : ℕ) (txin : CTxIn) : CTxIn :=
  { txin with
    scriptSig := if i = nIn then scriptCode else []
    nSequence := if i ≠ nIn ∧ fFree then 0 else txin.nSequence }

variable {s : Serializer}

theorem serializeInput_eq (hcode : (getOps s.scriptCode).isSome = true) {i : ℕ} {txin : CTxIn}
    (h : s.txTo.vin[if s.fAnyoneCanPay then s.nIn else i]? = some txin) :
    s.serializeInput i = (signedInput s.nIn (stripped s.scriptCode)
      (s.fHashSingle || s.fHashNone) (if s.fAnyoneCanPay then s.nIn else i) txin).write := by
  have hget : s.txTo.vin.getD (if s.fAnyoneCanPay then s.nIn else i) nullIn = txin := by
    rw [List.getD_eq_getElem?_getD, h]
    rfl
  unfold Serializer.serializeInput signedInput CTxIn.write
  dsimp only
  rw [hget]
  generalize (if s.fAnyoneCanPay then s.nIn else i) = j
  by_cases hj : j = s.nIn
  · simp [hj, serializeScriptCode_eq hcode]
  · by_cases hfree : (s.fHashSingle || s.fHashNone) = true
    · have hfree' : s.fHashSingle = true ∨ s.fHashNone = true := by simpa using hfree
      have hzero : writeInt 4 0 = writeLE 4 0 := rfl
      simp [hj, hfree', hzero]
    · have hfree' : ¬ (s.fHashSingle = true ∨ s.fHashNone = true) := by simpa using hfree
      simp [hj, hfree']

theorem serializeOutput_eq {i : ℕ} {txout : CTxOut} (h : s.txTo.vout[i]? = some txout) :
    s.serializeOutput i =
      (if s.fHashSingle ∧ i ≠ s.nIn then CTxOut.null else txout).write := by
  have hget : s.txTo.vout.getD i .null = txout := by
    rw [List.getD_eq_getElem?_getD, h]
    rfl
  unfold Serializer.serializeOutput
  rw [hget]
  split
  · rfl
  · rfl

theorem blanked_eq (nIn : ℕ) (code : CScript) (vin : List CTxIn) :
    (vin.map fun txin => { txin with scriptSig := [] }).modify nIn
        (fun txin => { txin with scriptSig := code }) =
      vin.mapIdx (signedInput nIn code false) := by
  refine List.ext_getElem? fun i => ?_
  rw [List.getElem?_modify, List.getElem?_map, List.getElem?_mapIdx]
  cases vin[i]? with
  | none => rfl
  | some txin => by_cases hi : nIn = i <;> simp [signedInput, hi, eq_comm]

theorem freeOthers_eq (nIn : ℕ) (code : CScript) (vin : List CTxIn) :
    freeOthers nIn (vin.mapIdx (signedInput nIn code false)) =
      vin.mapIdx (signedInput nIn code true) := by
  refine List.ext_getElem? fun i => ?_
  unfold freeOthers
  rw [List.getElem?_mapIdx, List.getElem?_mapIdx, List.getElem?_mapIdx]
  cases vin[i]? with
  | none => rfl
  | some txin => by_cases hi : i = nIn <;> simp [signedInput, hi]

theorem alone_eq {l : List CTxIn} {i : ℕ} {txin : CTxIn} (h : l[i]? = some txin) :
    (l.set 0 (l.getD i nullIn)).take 1 = [txin] := by
  have hget : l.getD i nullIn = txin := by
    rw [List.getD_eq_getElem?_getD, h]
    rfl
  rw [hget]
  cases l with
  | nil => exact absurd h.symm (by simp)
  | cons a l => rfl

theorem serializeInputs_eq (hcode : (getOps s.scriptCode).isSome = true)
    (hin : s.nIn < s.txTo.vin.length) {vin : List CTxIn}
    (hvin : vin = s.txTo.vin.mapIdx (signedInput s.nIn (stripped s.scriptCode)
      (s.fHashSingle || s.fHashNone))) :
    writeVector CTxIn.write
        (if s.fAnyoneCanPay then (vin.set 0 (vin.getD s.nIn nullIn)).take 1 else vin) =
      let nInputs := if s.fAnyoneCanPay then 1 else s.txTo.vin.length
      writeCompactSize nInputs ++ (List.range nInputs).flatMap s.serializeInput := by
  have hlength : vin.length = s.txTo.vin.length := by rw [hvin, List.length_mapIdx]
  cases hany : s.fAnyoneCanPay with
  | true =>
    have htxin : s.txTo.vin[s.nIn]? = some s.txTo.vin[s.nIn] := List.getElem?_eq_getElem hin
    generalize s.txTo.vin[s.nIn] = txin at htxin
    have hsigned : vin[s.nIn]? = some (signedInput s.nIn (stripped s.scriptCode)
        (s.fHashSingle || s.fHashNone) s.nIn txin) := by
      rw [hvin, List.getElem?_mapIdx, htxin]
      rfl
    have hzero : s.txTo.vin[if s.fAnyoneCanPay then s.nIn else 0]? = some txin := by
      rw [if_pos hany, htxin]
    have hwrite := serializeInput_eq hcode hzero
    rw [if_pos rfl, alone_eq hsigned]
    show _ = writeCompactSize 1 ++ (List.range 1).flatMap s.serializeInput
    rw [writeVector, List.range_one, List.flatMap_singleton, List.flatMap_singleton, hwrite,
      if_pos hany]
    rfl
  | false =>
    -- index by index
    have hall := flatMap_eq_range (l := vin) (f := CTxIn.write) (g := s.serializeInput) (by
      intro i a ha
      rw [hvin, List.getElem?_mapIdx] at ha
      obtain ⟨txin, htxin, rfl⟩ := Option.map_eq_some_iff.mp ha
      have hno : ¬ s.fAnyoneCanPay = true := by rw [hany]; exact Bool.false_ne_true
      have hat : s.txTo.vin[if s.fAnyoneCanPay then s.nIn else i]? = some txin := by
        rw [if_neg hno, htxin]
      rw [serializeInput_eq hcode hat, if_neg hno])
    rw [if_neg Bool.false_ne_true]
    show _ = writeCompactSize s.txTo.vin.length ++
      (List.range s.txTo.vin.length).flatMap s.serializeInput
    rw [writeVector, hall, hlength]

theorem serializeOutputs_eq (hout : s.fHashSingle = true → s.nIn < s.txTo.vout.length) :
    writeVector CTxOut.write
        (if s.fHashNone then []
        else if s.fHashSingle then
          (s.txTo.vout.take (s.nIn + 1)).mapIdx fun i txout => if i < s.nIn then .null else txout
        else s.txTo.vout) =
      let nOutputs := if s.fHashNone then 0 else if s.fHashSingle then s.nIn + 1
        else s.txTo.vout.length
      writeCompactSize nOutputs ++ (List.range nOutputs).flatMap s.serializeOutput := by
  cases hnone : s.fHashNone with
  | true => rfl
  | false =>
    rw [if_neg Bool.false_ne_true]
    show _ = let nOutputs := if s.fHashSingle then s.nIn + 1 else s.txTo.vout.length
      writeCompactSize nOutputs ++ (List.range nOutputs).flatMap s.serializeOutput
    cases hsingle : s.fHashSingle with
    | true =>
      have hlt := hout hsingle
      have hlength : ((s.txTo.vout.take (s.nIn + 1)).mapIdx fun i txout =>
          if i < s.nIn then CTxOut.null else txout).length = s.nIn + 1 := by
        rw [List.length_mapIdx, List.length_take]
        omega
      have hall := flatMap_eq_range (f := CTxOut.write) (g := s.serializeOutput)
        (l := (s.txTo.vout.take (s.nIn + 1)).mapIdx fun i txout =>
          if i < s.nIn then CTxOut.null else txout) (by
        intro i a ha
        rw [List.getElem?_mapIdx] at ha
        obtain ⟨txout, htxout, rfl⟩ := Option.map_eq_some_iff.mp ha
        have hi : i < s.nIn + 1 := by
          have := (List.getElem?_eq_some_iff.mp htxout).1
          rw [List.length_take] at this
          omega
        rw [List.getElem?_take_of_lt hi] at htxout
        -- the index is `nIn` or below it
        have hne : (s.fHashSingle = true ∧ i ≠ s.nIn) ↔ i < s.nIn :=
          ⟨fun h => by omega, fun h => ⟨hsingle, by omega⟩⟩
        rw [serializeOutput_eq htxout, if_congr hne rfl rfl])
      rw [if_pos rfl]
      show _ = writeCompactSize (s.nIn + 1) ++ (List.range (s.nIn + 1)).flatMap s.serializeOutput
      rw [writeVector, hall, hlength]
    | false =>
      have hall := flatMap_eq_range (l := s.txTo.vout) (f := CTxOut.write)
        (g := s.serializeOutput) (by
        intro i txout htxout
        have hno : ¬ (s.fHashSingle = true ∧ i ≠ s.nIn) := by
          rw [hsingle]
          exact fun h => Bool.false_ne_true h.1
        rw [serializeOutput_eq htxout, if_neg hno])
      rw [if_neg Bool.false_ne_true]
      show _ = writeCompactSize s.txTo.vout.length ++
        (List.range s.txTo.vout.length).flatMap s.serializeOutput
      rw [writeVector, hall]

variable (s) in
theorem serialize_eq (hcode : (getOps s.scriptCode).isSome = true)
    (hin : s.nIn < s.txTo.vin.length)
    (hout : s.fHashSingle = true → s.nIn < s.txTo.vout.length) (vin : List CTxIn)
    (hvin : vin = s.txTo.vin.mapIdx (signedInput s.nIn (stripped s.scriptCode)
      (s.fHashSingle || s.fHashNone))) (vout : List CTxOut)
    (hvout : vout = if s.fHashNone then []
      else if s.fHashSingle then
        (s.txTo.vout.take (s.nIn + 1)).mapIdx fun i txout => if i < s.nIn then .null else txout
      else s.txTo.vout) :
    CMutableTransaction.write ⟨s.txTo.nVersion,
      if s.fAnyoneCanPay then (vin.set 0 (vin.getD s.nIn nullIn)).take 1 else vin, vout,
      s.txTo.nLockTime⟩ = s.serialize := by
  rw [CMutableTransaction.write, serializeInputs_eq hcode hin hvin, hvout,
    serializeOutputs_eq hout]
  rfl

/-- **The signature hash** is that of the reference: the same bytes are hashed, and the constant
one is returned in the same cases. -/
theorem signatureHash_eq_old (scriptCode : CScript) (h : (getOps scriptCode).isSome = true)
    (txTo : CTransaction) (nIn : ℕ) (nHashType : UInt32) :
    signatureHash scriptCode txTo nIn nHashType =
      signatureHashOld scriptCode txTo nIn nHashType := by
  unfold signatureHash signatureHashOld
  by_cases hin : txTo.vin.length ≤ nIn
  · rw [if_pos hin, if_pos hin]
  rw [if_neg hin, if_neg hin]
  dsimp only
  rw [blanked_eq, freeOthers_eq]
  have hlt := Nat.lt_of_not_le hin
  have hdiff : SIGHASH_SINGLE ≠ SIGHASH_NONE := by decide
  -- the type asks for no outputs, for one, or for all
  by_cases hnone : nHashType &&& 0x1f = SIGHASH_NONE
  · have hsingle : ¬ nHashType &&& 0x1f = SIGHASH_SINGLE := by
      rw [hnone]
      exact hdiff.symm
    rw [if_neg fun hand => hsingle hand.1, if_pos hnone]
    have hwrite := serialize_eq (.of txTo scriptCode nIn nHashType) h hlt
      (fun hs => absurd (of_decide_eq_true hs) hsingle)
      (txTo.vin.mapIdx (signedInput nIn (stripped scriptCode) true))
      (by simp [Serializer.of, hnone]) [] (by simp [Serializer.of, hnone])
    rw [← hwrite]
    simp [Serializer.of, stripped]
  · by_cases hsingle : nHashType &&& 0x1f = SIGHASH_SINGLE
    · by_cases hout : txTo.vout.length ≤ nIn
      · rw [if_pos ⟨hsingle, hout⟩, if_neg hnone, if_pos hsingle, if_pos hout]
      · rw [if_neg fun hand => hout hand.2, if_neg hnone, if_pos hsingle, if_neg hout]
        have hwrite := serialize_eq (.of txTo scriptCode nIn nHashType) h hlt
          (fun _ => Nat.lt_of_not_le hout)
          (txTo.vin.mapIdx (signedInput nIn (stripped scriptCode) true))
          (by simp [Serializer.of, hsingle])
          ((txTo.vout.take (nIn + 1)).mapIdx fun i txout =>
            if i < nIn then .null else txout) (by simp [Serializer.of, hsingle, hdiff])
        rw [← hwrite]
        simp [Serializer.of, stripped]
    · rw [if_neg fun hand => hsingle hand.1, if_neg hnone, if_neg hsingle]
      have hwrite := serialize_eq (.of txTo scriptCode nIn nHashType) h hlt
        (fun hs => absurd (of_decide_eq_true hs) hsingle)
        (txTo.vin.mapIdx (signedInput nIn (stripped scriptCode) false))
        (by simp [Serializer.of, hsingle, hnone]) txTo.vout
        (by simp [Serializer.of, hsingle, hnone])
      rw [← hwrite]
      simp [Serializer.of, stripped]

/-- A separator in front of a push that holds the same byte, signed with
`SIGHASH_SINGLE | SIGHASH_ANYONECANPAY`. -/
def separatedScript : CScript := [0xab, 0x02, 0xab, 0xab, 0xab, 0xac]

theorem signatureHash_eq_old_separated :
    (getOps separatedScript).isSome = true ∧
      signatureHash separatedScript ⟨7, 1, [⟨⟨4, 0⟩, [0x51], 5⟩, ⟨⟨4, 1⟩, [0x51], 6⟩],
          [⟨1, [0x51], -10⟩, ⟨2, [0x52], -10⟩], 0⟩ 1 0x83 =
        signatureHashOld separatedScript ⟨7, 1, [⟨⟨4, 0⟩, [0x51], 5⟩, ⟨⟨4, 1⟩, [0x51], 6⟩],
          [⟨1, [0x51], -10⟩, ⟨2, [0x52], -10⟩], 0⟩ 1 0x83 :=
  ⟨by decide, signatureHash_eq_old separatedScript (by decide) _ 1 0x83⟩

end Stonecoin.SignatureHash
