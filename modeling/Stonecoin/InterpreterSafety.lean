/-
The interpreter is safe on every input.

Each operation is followed once, from a stack whose elements can be pushed (`Sized`): every
access is in range, every number that is computed fits, and the elements of the stack that is
left can be pushed again.  The limit on the number of elements is checked behind each opcode,
so it is a fact about the loop and not about the operations.

  * `evalScript_safe`: the evaluation ends, with a `scriptnum_error` as the only exception,
        and `VerifyScript` meets no failing assertion on the saved stack.
-/
import Stonecoin.Interpreter

namespace Stonecoin

namespace Interpreter

open Outcomes ScriptError

def Sized (stack : List Valtype) : Prop := ∀ vch ∈ stack, vch.length ≤ MAX_SCRIPT_ELEMENT_SIZE

theorem Sized.cons {vch : Valtype} {stack : List Valtype}
    (h : vch.length ≤ MAX_SCRIPT_ELEMENT_SIZE) (hs : Sized stack) : Sized (vch :: stack) :=
  List.forall_mem_cons.mpr ⟨h, hs⟩

theorem Sized.subset {s stack : List Valtype} (hs : Sized stack) (h : s ⊆ stack) : Sized s :=
  fun vch hv => hs vch (h hv)

theorem length_vchBool (f : Bool) : (vchBool f).length ≤ MAX_SCRIPT_ELEMENT_SIZE := by
  cases f <;> decide

theorem length_serialize_le (v : ℤ) : (serialize v).length ≤ MAX_SCRIPT_ELEMENT_SIZE :=
  (length_serialize v).trans (by decide)

theorem length_hashValue (crypto : ScriptCrypto) (op : HashOp) (vch : Valtype) :
    (hashValue crypto op vch).length ≤ MAX_SCRIPT_ELEMENT_SIZE := by
  cases op with
  | OP_RIPEMD160 => exact (crypto.ripemd160 vch).size_eq.trans_le (by decide)
  | OP_SHA1 => exact (crypto.sha1 vch).size_eq.trans_le (by decide)
  | OP_SHA256 => exact (crypto.sha256 vch).property.trans_le (by decide)
  | OP_HASH160 => exact (crypto.hash160 vch).size_eq.trans_le (by decide)
  | OP_HASH256 => exact (crypto.hash256 vch).property.trans_le (by decide)

variable {crypto : ScriptCrypto} {flags : ℕ} {checker : BaseSignatureChecker}
variable {stack : List Valtype}

/-! ### Accesses -/

/-- An operation that is safe, with a stack of `n` elements as its result. -/
abbrev Leaves (n : ℕ) (x : Except Stop (List Valtype)) : Prop :=
  Ensures Stop.Harmless (fun s => Sized s ∧ s.length = n) x

abbrev Safe (x : Except Stop (List Valtype)) : Prop := Ensures Stop.Harmless Sized x

theorem Leaves.safe {n : ℕ} {x : Except Stop (List Valtype)} (h : Leaves n x) : Safe x :=
  h.imp (fun _ => id) (fun _ hs => hs.1)

theorem ensures_stacktop (hs : Sized stack) {i : ℕ} (h0 : 0 < i) (hi : i ≤ stack.length) :
    Ensures Stop.Harmless (fun vch => vch.length ≤ MAX_SCRIPT_ELEMENT_SIZE)
      (stacktop stack i) := by
  have hlt : i - 1 < stack.length := by omega
  unfold stacktop
  rw [List.getElem?_eq_getElem hlt]
  exact hs _ (List.getElem_mem hlt)

theorem ensures_popstack (hs : Sized stack) (h : 1 ≤ stack.length) :
    Leaves (stack.length - 1) (popstack stack) := by
  cases stack with
  | nil => cases h
  | cons vch s => exact ⟨hs.subset (List.subset_cons_self vch s), rfl⟩

theorem ensures_popstacks {n : ℕ} : ∀ {stack : List Valtype}, Sized stack → n ≤ stack.length →
    Leaves (stack.length - n) (popstacks n stack) := by
  induction n with
  | zero => exact fun hs _ => ⟨hs, rfl⟩
  | succ n ih =>
    intro stack hs h
    apply (ensures_popstack hs (by omega)).bind
    intro s hs'
    have hrest := ih hs'.1 (by omega)
    apply hrest.imp (fun _ => id)
    intro s' hs''
    exact ⟨hs''.1, by omega⟩

theorem ensures_eraseTop (hs : Sized stack) {i : ℕ} (h0 : 0 < i) (hi : i ≤ stack.length) :
    Leaves (stack.length - 1) (eraseTop stack i) := by
  unfold eraseTop
  rw [if_pos ⟨h0, hi⟩]
  refine ⟨hs.subset List.eraseIdx_subset, ?_⟩
  exact List.length_eraseIdx_of_lt (by omega)

theorem ensures_insertTop (hs : Sized stack) {i : ℕ} (hi : i ≤ stack.length) {vch : Valtype}
    (hv : vch.length ≤ MAX_SCRIPT_ELEMENT_SIZE) : Safe (insertTop stack i vch) := by
  unfold insertTop
  rw [if_pos hi]
  intro v hmem
  simp only [List.mem_append, List.mem_cons] at hmem
  rcases hmem with h | rfl | h
  · exact hs v (List.mem_of_mem_take h)
  · exact hv
  · exact hs v (List.mem_of_mem_drop h)

theorem ensures_swapTop (hs : Sized stack) {i j : ℕ} (h0 : 0 < i) (hi : i ≤ stack.length)
    (h0' : 0 < j) (hj : j ≤ stack.length) : Leaves stack.length (swapTop stack i j) := by
  apply (ensures_stacktop hs h0 hi).bind
  intro a ha
  apply (ensures_stacktop hs h0' hj).bind
  intro b hb
  constructor
  · intro v hv
    rcases List.mem_or_eq_of_mem_set hv with hv | rfl
    · rcases List.mem_or_eq_of_mem_set hv with hv | rfl
      · exact hs v hv
      · exact hb
    · exact ha
  · simp

theorem ensures_needs {n : ℕ} {r : Except Stop (List Valtype)}
    (h : n ≤ stack.length → Safe r) : Safe (needs stack n r) :=
  Ensures.ite (fun _ => ensures_error.mpr trivial) fun hn => h (Nat.le_of_not_lt hn)

/-! ### Numbers -/

theorem ensures_numTop (hs : Sized stack) {i : ℕ} (h0 : 0 < i) (hi : i ≤ stack.length)
    {nMaxNumSize : ℕ} (hmax : nMaxNumSize ≤ 5) :
    Ensures Stop.Harmless (fun v => v.natAbs < 256 ^ nMaxNumSize)
      (numTop flags stack i nMaxNumSize) :=
  (ensures_stacktop hs h0 hi).bind fun vch _ => ensures_scriptNum vch _ hmax

theorem ensures_int64 {v : ℤ} (h : v.natAbs < 2 * 256 ^ 4) :
    Ensures Stop.Harmless (fun v => INT64_MIN < v) (int64 v) := by
  have h4 : 256 ^ 4 = 4294967296 := rfl
  unfold int64
  rw [if_pos (by unfold INT64_MIN INT64_MAX; omega)]
  show INT64_MIN < v
  unfold INT64_MIN
  omega

theorem ensures_getvch {v : ℤ} (h : INT64_MIN < v) :
    Ensures Stop.Harmless (fun vch => vch.length ≤ MAX_SCRIPT_ELEMENT_SIZE) (getvch v) := by
  unfold getvch
  rw [if_neg (by omega)]
  exact length_serialize_le v

theorem numBool_gt (b : Bool) : INT64_MIN < numBool b := by
  cases b <;> decide

theorem ensures_unaryNum (op : UnaryOp) {bn : ℤ} (h : bn.natAbs < 256 ^ 4) :
    Ensures Stop.Harmless (fun v => INT64_MIN < v) (unaryNum op bn) := by
  have h4 : 256 ^ 4 = 4294967296 := rfl
  have hneg : Ensures Stop.Harmless (fun v => INT64_MIN < v) (scriptNumNeg bn) := by
    unfold scriptNumNeg
    rw [if_neg (by unfold INT64_MIN; omega)]
    exact ensures_int64 (by omega)
  cases op with
  | OP_1ADD =>
    show Ensures _ _ (scriptNumAddAssign bn 1)
    unfold scriptNumAddAssign
    rw [if_pos (by unfold INT64_MIN INT64_MAX; omega)]
    exact ensures_int64 (by omega)
  | OP_1SUB =>
    show Ensures _ _ (scriptNumSubAssign bn 1)
    unfold scriptNumSubAssign
    rw [if_pos (by unfold INT64_MIN INT64_MAX; omega)]
    exact ensures_int64 (by omega)
  | OP_NEGATE => exact hneg
  | OP_ABS =>
    apply Ensures.ite (fun _ => hneg)
    intro _
    show INT64_MIN < bn
    unfold INT64_MIN
    omega
  | OP_NOT => exact numBool_gt _
  | OP_0NOTEQUAL => exact numBool_gt _

theorem ensures_binaryNum (op : BinaryOp) {bn1 bn2 : ℤ} (h1 : bn1.natAbs < 256 ^ 4)
    (h2 : bn2.natAbs < 256 ^ 4) :
    Ensures Stop.Harmless (fun v => INT64_MIN < v) (binaryNum op bn1 bn2) := by
  have h4 : 256 ^ 4 = 4294967296 := rfl
  have hgt : ∀ {bn : ℤ}, bn.natAbs < 256 ^ 4 → INT64_MIN < bn := by
    intro bn h
    unfold INT64_MIN
    omega
  cases op with
  | OP_ADD => exact ensures_int64 (by omega)
  | OP_SUB => exact ensures_int64 (by omega)
  | OP_MIN =>
    show INT64_MIN < ite _ _ _
    split
    · exact hgt h1
    · exact hgt h2
  | OP_MAX =>
    show INT64_MIN < ite _ _ _
    split
    · exact hgt h1
    · exact hgt h2
  | _ => exact numBool_gt _

/-! ### Operations on the stack alone -/

theorem ensures_plainOp (op : PlainOp) (hs : Sized stack) : Safe (plainOp op stack) := by
  have hlen : ∀ n : ℕ, INT64_MIN < (n : ℤ) := by
    intro n
    unfold INT64_MIN
    omega
  cases op with
  | OP_2DROP =>
    apply ensures_needs
    intro h
    apply (ensures_popstack hs (by omega)).bind
    intro s hs'
    exact (ensures_popstack hs'.1 (by omega)).safe
  | OP_2DUP =>
    apply ensures_needs
    intro h
    apply (ensures_stacktop hs (by omega) h).bind
    intro vch1 h1
    apply (ensures_stacktop hs (by omega) (by omega)).bind
    intro vch2 h2
    exact (hs.cons h1).cons h2
  | OP_3DUP =>
    apply ensures_needs
    intro h
    apply (ensures_stacktop hs (by omega) h).bind
    intro vch1 h1
    apply (ensures_stacktop hs (by omega) (by omega)).bind
    intro vch2 h2
    apply (ensures_stacktop hs (by omega) (by omega)).bind
    intro vch3 h3
    exact ((hs.cons h1).cons h2).cons h3
  | OP_2OVER =>
    apply ensures_needs
    intro h
    apply (ensures_stacktop hs (by omega) h).bind
    intro vch1 h1
    apply (ensures_stacktop hs (by omega) (by omega)).bind
    intro vch2 h2
    exact (hs.cons h1).cons h2
  | OP_2ROT =>
    apply ensures_needs
    intro h
    apply (ensures_stacktop hs (by omega) h).bind
    intro vch1 h1
    apply (ensures_stacktop hs (by omega) (by omega)).bind
    intro vch2 h2
    apply (ensures_eraseTop hs (by omega) h).bind
    intro s hs'
    apply (ensures_eraseTop hs'.1 (by omega) (by omega)).bind
    intro s' hs''
    exact (hs''.1.cons h1).cons h2
  | OP_2SWAP =>
    apply ensures_needs
    intro h
    apply (ensures_swapTop hs (by omega) h (by omega) (by omega)).bind
    intro s hs'
    exact (ensures_swapTop hs'.1 (by omega) (by omega) (by omega) (by omega)).safe
  | OP_IFDUP =>
    apply ensures_needs
    intro h
    apply (ensures_stacktop hs (by omega) h).bind
    intro vch hv
    show Sized (ite _ _ _)
    split
    · exact hs.cons hv
    · exact hs
  | OP_DEPTH =>
    apply (ensures_getvch (hlen _)).bind
    intro vch hv
    exact hs.cons hv
  | OP_DROP => exact ensures_needs fun h => (ensures_popstack hs h).safe
  | OP_DUP =>
    apply ensures_needs
    intro h
    apply (ensures_stacktop hs (by omega) h).bind
    intro vch hv
    exact hs.cons hv
  | OP_NIP => exact ensures_needs fun h => (ensures_eraseTop hs (by omega) h).safe
  | OP_OVER =>
    apply ensures_needs
    intro h
    apply (ensures_stacktop hs (by omega) h).bind
    intro vch hv
    exact hs.cons hv
  | OP_ROT =>
    apply ensures_needs
    intro h
    apply (ensures_swapTop hs (by omega) h (by omega) (by omega)).bind
    intro s hs'
    exact (ensures_swapTop hs'.1 (by omega) (by omega) (by omega) (by omega)).safe
  | OP_SWAP =>
    exact ensures_needs fun h => (ensures_swapTop hs (by omega) h (by omega) (by omega)).safe
  | OP_TUCK =>
    apply ensures_needs
    intro h
    apply (ensures_stacktop hs (by omega) (by omega)).bind
    intro vch hv
    exact ensures_insertTop hs h hv
  | OP_SIZE =>
    apply ensures_needs
    intro h
    apply (ensures_stacktop hs (by omega) h).bind
    intro vch _
    apply (ensures_getvch (hlen _)).bind
    intro size hsize
    exact hs.cons hsize

theorem ensures_opPick (fRoll : Bool) (hs : Sized stack) : Safe (opPick flags fRoll stack) := by
  apply ensures_needs
  intro h
  apply (ensures_numTop hs (by omega) (by omega) (by decide)).bind
  intro bn _
  apply (ensures_popstack hs (by omega)).bind
  intro s hs'
  apply Ensures.ite (fun _ => ensures_error.mpr trivial)
  intro hn
  apply (ensures_stacktop hs'.1 (by omega) (by omega)).bind
  intro vch hv
  cases fRoll with
  | true =>
    apply (ensures_eraseTop hs'.1 (by omega) (by omega)).bind
    intro s' hs''
    exact hs''.1.cons hv
  | false => exact hs'.1.cons hv

theorem ensures_verifyTop (fVerify f : Bool) (e : ScriptError) {vch : Valtype}
    (hv : vch.length ≤ MAX_SCRIPT_ELEMENT_SIZE) (hs : Sized stack) :
    Safe (verifyTop fVerify f e (vch :: stack)) := by
  apply Ensures.ite
  · intro _
    apply Ensures.ite
    · exact fun _ => hs
    · exact fun _ => ensures_error.mpr trivial
  · exact fun _ => hs.cons hv

theorem ensures_opEqual (fVerify : Bool) (hs : Sized stack) : Safe (opEqual fVerify stack) := by
  apply ensures_needs
  intro h
  apply (ensures_stacktop hs (by omega) h).bind
  intro vch1 _
  apply (ensures_stacktop hs (by omega) (by omega)).bind
  intro vch2 _
  apply (ensures_popstacks hs h).bind
  intro s hs'
  exact ensures_verifyTop _ _ _ (length_vchBool _) hs'.1

theorem ensures_opUnary (op : UnaryOp) (hs : Sized stack) : Safe (opUnary flags op stack) := by
  apply ensures_needs
  intro h
  apply (ensures_numTop hs (by omega) h (by decide)).bind
  intro bn hbn
  apply (ensures_unaryNum op hbn).bind
  intro bn' hbn'
  apply (ensures_popstack hs h).bind
  intro s hs'
  apply (ensures_getvch hbn').bind
  intro vch hv
  exact hs'.1.cons hv

theorem ensures_opBinary (op : BinaryOp) (hs : Sized stack) :
    Safe (opBinary flags op stack) := by
  apply ensures_needs
  intro h
  apply (ensures_numTop hs (by omega) h (by decide)).bind
  intro bn1 hbn1
  apply (ensures_numTop hs (by omega) (by omega) (by decide)).bind
  intro bn2 hbn2
  apply (ensures_binaryNum op hbn1 hbn2).bind
  intro bn hbn
  apply (ensures_popstacks hs h).bind
  intro s hs'
  apply (ensures_getvch hbn).bind
  intro vch hv
  exact ensures_verifyTop _ _ _ hv hs'.1

theorem ensures_opWithin (hs : Sized stack) : Safe (opWithin flags stack) := by
  apply ensures_needs
  intro h
  apply (ensures_numTop hs (by omega) h (by decide)).bind
  intro bn1 _
  apply (ensures_numTop hs (by omega) (by omega) (by decide)).bind
  intro bn2 _
  apply (ensures_numTop hs (by omega) (by omega) (by decide)).bind
  intro bn3 _
  apply (ensures_popstacks hs h).bind
  intro s hs'
  exact hs'.1.cons (length_vchBool _)

theorem ensures_opHash (op : HashOp) (hs : Sized stack) : Safe (opHash crypto op stack) := by
  apply ensures_needs
  intro h
  apply (ensures_stacktop hs (by omega) h).bind
  intro vch _
  apply (ensures_popstack hs h).bind
  intro s hs'
  exact hs'.1.cons (length_hashValue crypto op vch)

theorem ensures_opVerify (hs : Sized stack) : Safe (opVerify stack) := by
  apply ensures_needs
  intro h
  apply (ensures_stacktop hs (by omega) h).bind
  intro vch _
  apply Ensures.ite
  · exact fun _ => (ensures_popstack hs h).safe
  · exact fun _ => ensures_error.mpr trivial

theorem ensures_upgradableNop (hs : Sized stack) : Safe (upgradableNop flags stack) :=
  Ensures.ite (fun _ => ensures_error.mpr trivial) fun _ => hs

theorem ensures_opCheckLockTimeVerify (hs : Sized stack) :
    Safe (opCheckLockTimeVerify flags checker stack) := by
  apply Ensures.ite (fun _ => ensures_upgradableNop hs)
  intro _
  apply ensures_needs
  intro h
  apply (ensures_numTop hs (by omega) h (by decide)).bind
  intro nLockTime _
  apply Ensures.ite (fun _ => ensures_error.mpr trivial)
  intro _
  exact Ensures.ite (fun _ => ensures_error.mpr trivial) fun _ => hs

theorem ensures_opCheckSequenceVerify (hs : Sized stack) :
    Safe (opCheckSequenceVerify flags checker stack) := by
  apply Ensures.ite (fun _ => ensures_upgradableNop hs)
  intro _
  apply ensures_needs
  intro h
  apply (ensures_numTop hs (by omega) h (by decide)).bind
  intro nSequence _
  apply Ensures.ite (fun _ => ensures_error.mpr trivial)
  intro _
  apply Ensures.ite (fun _ => ensures_ok.mpr hs)
  intro _
  exact Ensures.ite (fun _ => ensures_error.mpr trivial) fun _ => hs

/-! ### Operations on the state -/

/-- The elements of both stacks can be pushed. -/
structure EvalState.Sound (σ : EvalState) : Prop where
  stack : Sized σ.stack
  altstack : Sized σ.altstack

def Fail.Harmless (f : Fail) : Prop := f.stop.Harmless

abbrev Keeps (x : Except Fail EvalState) : Prop := Ensures Fail.Harmless EvalState.Sound x

theorem ensures_withCount {α : Type} {P : α → Prop} {n : ℕ} {x : Except Stop α}
    (h : Ensures Stop.Harmless P x) : Ensures Fail.Harmless P (withCount n x) := by
  cases x with
  | error e => exact h
  | ok a => exact h

theorem ensures_fail {α : Type} {P : α → Prop} (σ : EvalState) (e : ScriptError) :
    Ensures Fail.Harmless P (σ.fail e) := trivial

section

variable {σ : EvalState}

theorem ensures_onStack {f : List Valtype → Except Stop (List Valtype)} (hσ : σ.Sound)
    (hf : Safe (f σ.stack)) : Keeps (σ.onStack f) :=
  (ensures_withCount hf).bind fun _ hs => ⟨hs, hσ.altstack⟩

theorem ensures_opIf (fNot fExec : Bool) (hσ : σ.Sound) : Keeps (σ.opIf fNot fExec) := by
  apply Ensures.ite
  · intro _
    apply Ensures.ite (fun _ => ensures_fail _ _)
    intro h
    apply (ensures_withCount (ensures_stacktop hσ.stack (by omega) (by omega))).bind
    intro vch _
    apply (ensures_withCount (ensures_popstack hσ.stack (by omega))).bind
    intro s hs
    exact ⟨hs.1, hσ.altstack⟩
  · exact fun _ => ⟨hσ.stack, hσ.altstack⟩

theorem ensures_opElse (hσ : σ.Sound) : Keeps σ.opElse := by
  unfold EvalState.opElse
  split
  · exact ensures_fail _ _
  · exact ⟨hσ.stack, hσ.altstack⟩

theorem ensures_opEndIf (hσ : σ.Sound) : Keeps σ.opEndIf := by
  unfold EvalState.opEndIf
  split
  · exact ensures_fail _ _
  · exact ⟨hσ.stack, hσ.altstack⟩

theorem ensures_opToAltStack (hσ : σ.Sound) : Keeps σ.opToAltStack := by
  apply Ensures.ite (fun _ => ensures_fail _ _)
  intro h
  apply (ensures_withCount (ensures_stacktop hσ.stack (by omega) (by omega))).bind
  intro vch hv
  apply (ensures_withCount (ensures_popstack hσ.stack (by omega))).bind
  intro s hs
  exact ⟨hs.1, hσ.altstack.cons hv⟩

theorem ensures_opFromAltStack (hσ : σ.Sound) : Keeps σ.opFromAltStack := by
  apply Ensures.ite (fun _ => ensures_fail _ _)
  intro h
  apply (ensures_withCount (ensures_stacktop hσ.altstack (by omega) (by omega))).bind
  intro vch hv
  apply (ensures_withCount (ensures_popstack hσ.altstack (by omega))).bind
  intro s hs
  exact ⟨hσ.stack.cons hv, hs.1⟩

/-! ### Signatures -/

theorem ensures_checkSignatureEncoding (vchSig : Valtype) :
    Ensures Stop.Harmless (fun _ => True) (checkSignatureEncoding crypto flags vchSig) := by
  have hlow : Ensures Stop.Harmless (fun _ => True) (isLowDERSignature crypto vchSig) := by
    apply Ensures.ite (fun _ => ensures_error.mpr trivial)
    intro _
    exact Ensures.ite (fun _ => ensures_error.mpr trivial) fun _ => ensures_ok.mpr trivial
  have hhash : Ensures Stop.Harmless (fun _ => True)
      (if has flags SCRIPT_VERIFY_STRICTENC && !isDefinedHashtypeSignature vchSig then
        .error (.error SCRIPT_ERR_SIG_HASHTYPE)
      else .ok () : Except Stop Unit) :=
    Ensures.ite (fun _ => ensures_error.mpr trivial) fun _ => ensures_ok.mpr trivial
  apply Ensures.ite (fun _ => ensures_ok.mpr trivial)
  intro _
  apply Ensures.ite (fun _ => ensures_error.mpr trivial)
  intro _
  apply Ensures.ite
  · exact fun _ => hlow.bind fun _ _ => hhash
  · exact fun _ => hhash

theorem ensures_checkPubKeyEncoding (vchPubKey : Valtype) :
    Ensures Stop.Harmless (fun _ => True) (checkPubKeyEncoding flags vchPubKey) :=
  Ensures.ite (fun _ => ensures_error.mpr trivial) fun _ => ensures_ok.mpr trivial

theorem ensures_opCheckSig (fVerify : Bool) (hσ : σ.Sound) :
    Keeps (σ.opCheckSig crypto flags checker fVerify) := by
  apply Ensures.ite (fun _ => ensures_fail _ _)
  intro h
  apply (ensures_withCount (ensures_stacktop hσ.stack (by omega) (by omega))).bind
  intro vchSig _
  apply (ensures_withCount (ensures_stacktop hσ.stack (by omega) (by omega))).bind
  intro vchPubKey _
  apply (ensures_withCount (ensures_checkSignatureEncoding vchSig)).bind
  intro _ _
  apply (ensures_withCount (ensures_checkPubKeyEncoding vchPubKey)).bind
  intro _ _
  apply (ensures_withCount (ensures_popstacks hσ.stack (by omega))).bind
  intro s hs
  apply (ensures_withCount (ensures_verifyTop _ _ _ (length_vchBool _) hs.1)).bind
  intro s' hs'
  exact ⟨hs', hσ.altstack⟩

theorem ensures_dropSigs (hs : Sized stack) {isig : ℕ} (h0 : 0 < isig) : ∀ {n : ℕ},
    isig + n ≤ stack.length + 1 → ∀ scriptCode,
    Ensures Stop.Harmless (fun _ => True) (dropSigs stack isig n scriptCode) := by
  intro n
  induction n with
  | zero => exact fun _ _ => ensures_ok.mpr trivial
  | succ n ih =>
    intro h scriptCode
    apply (ih (by omega) scriptCode).bind
    intro _ _
    apply (ensures_stacktop hs (by omega) (by omega)).bind
    intro _ _
    exact trivial

theorem ensures_multiSigLoop (hs : Sized stack) (scriptCode : CScript) :
    ∀ {nKeysCount nSigsCount isig ikey nCheckSig : ℕ}, 0 < isig → 0 < ikey →
    isig + nSigsCount ≤ stack.length + 1 → ikey + nKeysCount ≤ stack.length + 1 →
    Ensures Fail.Harmless (fun _ => True) (multiSigLoop crypto flags checker stack scriptCode
      nKeysCount nSigsCount isig ikey nCheckSig) := by
  intro nKeysCount
  induction nKeysCount with
  | zero =>
    intro nSigsCount
    cases nSigsCount with
    | zero => exact fun _ _ _ _ => ensures_ok.mpr trivial
    | succ n => exact fun _ _ _ _ => ensures_ok.mpr trivial
  | succ nKeysCount ih =>
    intro nSigsCount isig ikey nCheckSig h0 h0' hsig hkey
    cases nSigsCount with
    | zero => exact ensures_ok.mpr trivial
    | succ nSigsCount =>
      apply (ensures_withCount (ensures_stacktop hs h0 (by omega))).bind
      intro vchSig _
      apply (ensures_withCount (ensures_stacktop hs h0' (by omega))).bind
      intro vchPubKey _
      apply (ensures_withCount (ensures_checkSignatureEncoding vchSig)).bind
      intro _ _
      apply (ensures_withCount (ensures_checkPubKeyEncoding vchPubKey)).bind
      intro _ _
      apply Ensures.ite (fun _ => ensures_ok.mpr trivial)
      intro _
      -- a signature that matched is behind, the other one is tried with the next key
      cases checker.checkSig vchSig vchPubKey scriptCode with
      | true => exact ih (Nat.succ_pos _) (Nat.succ_pos _) (by simp; omega) (by omega)
      | false => exact ih h0 (Nat.succ_pos _) (by simp; omega) (by omega)

theorem ensures_multiSigClean {i : ℕ} (fVerify fSuccess : Bool) (hs : Sized stack)
    (hi : i - 1 ≤ stack.length) : Safe (multiSigClean flags i fVerify fSuccess stack) := by
  apply (ensures_popstacks hs hi).bind
  intro s hs'
  apply ensures_needs
  intro h
  apply (ensures_stacktop hs'.1 (by omega) h).bind
  intro dummy _
  apply Ensures.ite (fun _ => ensures_error.mpr trivial)
  intro _
  apply (ensures_popstack hs'.1 h).bind
  intro s' hs''
  exact ensures_verifyTop _ _ _ (length_vchBool _) hs''.1

theorem ensures_multiSigs (fVerify : Bool) {nKeysCount i : ℕ} (hσ : σ.Sound)
    (hi : i = 2 + nKeysCount) (hle : i ≤ σ.stack.length) :
    Keeps (σ.multiSigs crypto flags checker fVerify nKeysCount i) := by
  apply (ensures_withCount (ensures_numTop hσ.stack (by omega) hle (by decide))).bind
  intro bn _
  apply Ensures.ite (fun _ => ensures_fail _ _)
  intro hbn
  apply Ensures.ite (fun _ => ensures_fail _ _)
  intro hlen
  apply (ensures_withCount (ensures_dropSigs hσ.stack (by omega) (by omega) _)).bind
  intro scriptCode _
  apply (ensures_multiSigLoop hσ.stack scriptCode (by omega) (by omega) (by omega)
    (by omega)).bind
  intro r _
  apply (ensures_withCount (ensures_multiSigClean _ _ hσ.stack (by omega))).bind
  intro s hs
  exact ⟨hs, hσ.altstack⟩

theorem ensures_opCheckMultiSig (fVerify : Bool) (hσ : σ.Sound) :
    Keeps (σ.opCheckMultiSig crypto flags checker fVerify) := by
  apply Ensures.ite (fun _ => ensures_fail _ _)
  intro h
  apply (ensures_withCount (ensures_numTop hσ.stack (by omega) (by omega) (by decide))).bind
  intro bn _
  apply Ensures.ite (fun _ => ensures_fail _ _)
  intro _
  apply Ensures.ite (fun _ => ensures_fail _ _)
  intro _
  apply Ensures.ite (fun _ => ensures_fail _ _)
  intro hlen
  exact ensures_multiSigs fVerify ⟨hσ.stack, hσ.altstack⟩ rfl (Nat.le_of_not_lt hlen)

/-! ### The loop -/

theorem decodeOp_pushNumber {opcode : UInt8} {n : ℤ} (h : decodeOp opcode = .pushNumber n) :
    -1 ≤ n := by
  unfold decodeOp at h
  split at h
  next hop =>
    cases h
    have h1 : OP_1.toNat ≤ opcode.toNat := hop.1
    omega
  next =>
    split at h
    next => cases h; decide
    all_goals cases h

theorem ensures_execInstr (instr : Instr) (fExec : Bool) (pc : CScript) (hσ : σ.Sound)
    (hn : ∀ n, instr = .pushNumber n → -1 ≤ n) :
    Keeps (execInstr crypto flags checker instr fExec pc σ) := by
  cases instr with
  | pushNumber n =>
    have hmin : INT64_MIN < n := lt_of_lt_of_le (by decide) (hn n rfl)
    show Keeps (σ.onStack fun stack => getvch n >>= fun vch => .ok (vch :: stack))
    apply ensures_onStack hσ
    exact (ensures_getvch hmin).bind fun vch hv => hσ.stack.cons hv
  | OP_NOP => exact hσ
  | OP_CHECKLOCKTIMEVERIFY => exact ensures_onStack hσ (ensures_opCheckLockTimeVerify hσ.stack)
  | OP_CHECKSEQUENCEVERIFY => exact ensures_onStack hσ (ensures_opCheckSequenceVerify hσ.stack)
  | upgradableNop => exact ensures_onStack hσ (ensures_upgradableNop hσ.stack)
  | OP_IF fNot => exact ensures_opIf fNot fExec hσ
  | OP_ELSE => exact ensures_opElse hσ
  | OP_ENDIF => exact ensures_opEndIf hσ
  | OP_VERIFY => exact ensures_onStack hσ (ensures_opVerify hσ.stack)
  | OP_RETURN => exact ensures_fail _ _
  | OP_TOALTSTACK => exact ensures_opToAltStack hσ
  | OP_FROMALTSTACK => exact ensures_opFromAltStack hσ
  | plain op => exact ensures_onStack hσ (ensures_plainOp op hσ.stack)
  | OP_PICK fRoll => exact ensures_onStack hσ (ensures_opPick fRoll hσ.stack)
  | OP_EQUAL fVerify => exact ensures_onStack hσ (ensures_opEqual fVerify hσ.stack)
  | unary op => exact ensures_onStack hσ (ensures_opUnary op hσ.stack)
  | binary op => exact ensures_onStack hσ (ensures_opBinary op hσ.stack)
  | OP_WITHIN => exact ensures_onStack hσ (ensures_opWithin hσ.stack)
  | hash op => exact ensures_onStack hσ (ensures_opHash op hσ.stack)
  | OP_CODESEPARATOR => exact ⟨hσ.stack, hσ.altstack⟩
  | OP_CHECKSIG fVerify => exact ensures_opCheckSig fVerify hσ
  | OP_CHECKMULTISIG fVerify => exact ensures_opCheckMultiSig fVerify hσ
  | bad => exact ensures_fail _ _

theorem ensures_evalOpcode (opcode : UInt8) {vchPushValue : Valtype} (pc : CScript)
    (hv : vchPushValue.length ≤ MAX_SCRIPT_ELEMENT_SIZE) (hσ : σ.Sound) :
    Keeps (evalOpcode crypto flags checker opcode vchPushValue pc σ) := by
  apply Ensures.ite
  · intro _
    apply Ensures.ite (fun _ => ensures_fail _ _)
    exact fun _ => ⟨hσ.stack.cons hv, hσ.altstack⟩
  · intro _
    apply Ensures.ite
    · exact fun _ => ensures_execInstr _ _ pc hσ fun _ => decodeOp_pushNumber
    · exact fun _ => ensures_ok.mpr hσ

theorem ensures_countOpcode (opcode : UInt8) (vchPushValue : Valtype) (hσ : σ.Sound) :
    Ensures Fail.Harmless
      (fun σ' => σ'.Sound ∧ vchPushValue.length ≤ MAX_SCRIPT_ELEMENT_SIZE)
      (countOpcode opcode vchPushValue σ) := by
  apply Ensures.ite (fun _ => ensures_fail _ _)
  intro hlen
  apply Ensures.ite (fun _ => ensures_fail _ _)
  intro _
  apply Ensures.ite (fun _ => ensures_fail _ _)
  intro _
  refine ⟨?_, Nat.le_of_not_lt hlen⟩
  split
  · exact ⟨hσ.stack, hσ.altstack⟩
  · exact hσ

/-- The limit on both stacks together, as it is checked behind each opcode. -/
def EvalState.Limited (σ : EvalState) : Prop := σ.stack.length + σ.altstack.length ≤ 1000

theorem ensures_evalStep (opcode : UInt8) (vchPushValue : Valtype) (pc : CScript)
    (hσ : σ.Sound) :
    Ensures Fail.Harmless (fun σ' => σ'.Sound ∧ σ'.Limited)
      (evalStep crypto flags checker opcode vchPushValue pc σ) := by
  apply (ensures_countOpcode opcode vchPushValue hσ).bind
  intro σ' h
  apply (ensures_evalOpcode opcode pc h.2 h.1).bind
  intro σ'' h'
  apply Ensures.ite (fun _ => ensures_fail _ _)
  exact fun hle => ⟨h', Nat.le_of_not_lt hle⟩

theorem ensures_evalLoop : ∀ {fuel : ℕ} {pc : CScript} {σ : EvalState}, pc.length ≤ fuel →
    σ.Sound → σ.Limited →
    Ensures Fail.Harmless (fun σ' => σ'.Sound ∧ σ'.Limited)
      (evalLoop crypto flags checker fuel pc σ) := by
  intro fuel
  induction fuel with
  | zero =>
    intro pc σ hlen hσ hlim
    obtain rfl := List.length_eq_zero_iff.mp (Nat.le_zero.mp hlen)
    exact ⟨hσ, hlim⟩
  | succ fuel ih =>
    intro pc σ hlen hσ hlim
    cases pc with
    | nil => exact ⟨hσ, hlim⟩
    | cons b bs =>
      rw [evalLoop]
      rcases hop : getOp (b :: bs) with - | ⟨opcode, vchPushValue, pc⟩
      · exact ensures_fail _ _
      · have hlt := getOp_length_lt hop
        show Ensures _ _ (evalStep crypto flags checker opcode vchPushValue pc σ >>= _)
        apply (ensures_evalStep opcode vchPushValue pc hσ).bind
        intro σ' h
        exact ih (by omega) h.1 h.2

end

/-! ### `EvalScript` and `VerifyScript` -/

/-- What `EvalScript` may be given, and gives back. -/
structure Fits (stack : List Valtype) : Prop where
  sized : Sized stack
  length_le : stack.length ≤ 1000

theorem ensures_evalScript (h : Fits stack) (script : CScript) :
    Ensures Stop.Harmless Fits (evalScript crypto flags checker stack script).outcome := by
  have hloop := @ensures_evalLoop crypto flags checker _ _ (.start stack script)
    (Nat.le_refl script.length) ⟨h.sized, fun _ hv => nomatch hv⟩ h.length_le
  unfold evalScript
  split
  · exact ensures_error.mpr trivial
  · split
    next f hf =>
      rw [hf] at hloop
      exact hloop
    next σ hσ =>
      rw [hσ] at hloop
      split
      · exact ensures_error.mpr trivial
      · have hlim : σ.stack.length + σ.altstack.length ≤ 1000 := hloop.2
        exact ⟨hloop.1.stack, by show σ.stack.length ≤ 1000; omega⟩

theorem fits_nil : Fits [] := ⟨fun _ hv => absurd hv List.not_mem_nil, Nat.zero_le _⟩

theorem harmless_caught {e : Stop} (h : e.Harmless) : (Stop.caught e).Harmless := by
  cases e with
  | error e => trivial
  | thrown x => trivial
  | fault f => exact h

theorem evalScript_nil_of_isPayToScriptHash {script : CScript}
    (h : isPayToScriptHash script = true) :
    ∃ n, evalScript crypto flags checker [] script =
      ⟨.error (.error SCRIPT_ERR_INVALID_STACK_OPERATION), n⟩ := by
  unfold isPayToScriptHash at h
  simp only [decide_eq_true_eq] at h
  obtain ⟨hlen, hop, -, -⟩ := h
  cases script with
  | nil => cases hlen
  | cons b bs =>
    obtain rfl : b = OP_HASH160 := hop
    have hstep : evalStep crypto flags checker OP_HASH160 [] bs (.start [] (OP_HASH160 :: bs)) =
        .error ⟨.error SCRIPT_ERR_INVALID_STACK_OPERATION, 0⟩ := rfl
    have hloop : evalLoop crypto flags checker 23 (OP_HASH160 :: bs)
        (.start [] (OP_HASH160 :: bs)) = .error ⟨.error SCRIPT_ERR_INVALID_STACK_OPERATION, 0⟩ := by
      rw [evalLoop]
      show evalStep crypto flags checker OP_HASH160 [] bs _ >>= _ = _
      rw [hstep]
      rfl
    refine ⟨0, ?_⟩
    unfold evalScript
    rw [if_neg (by omega), hlen, hloop]

/-- `VerifyScript` stops as a script may stop, or on the assertion on its flags. -/
def VerifyStop (flags : ℕ) (e : Stop) : Prop :=
  e.Harmless ∨ e = .fault .assertion ∧ has flags SCRIPT_VERIFY_CLEANSTACK = true ∧
    has flags SCRIPT_VERIFY_P2SH = false

abbrev Verifies (flags : ℕ) (x : Except Stop Unit) : Prop :=
  Ensures (VerifyStop flags) (fun _ => True) x

theorem ensures_checkTop (stack : List Valtype) : Verifies flags (checkTop stack) := by
  unfold checkTop
  split
  · exact Or.inl trivial
  · exact Ensures.ite (fun _ => trivial) fun _ => ensures_error.mpr (Or.inl trivial)

theorem ensures_checkCleanStack (stack : List Valtype) :
    Verifies flags (checkCleanStack flags stack) := by
  apply Ensures.ite
  · intro hclean
    apply Ensures.ite
    · intro hp2sh
      exact ensures_error.mpr (Or.inr ⟨rfl, hclean, by simpa using hp2sh⟩)
    · intro _
      exact Ensures.ite (fun _ => ensures_error.mpr (Or.inl trivial)) fun _ => trivial
  · exact fun _ => trivial

theorem ensures_verifyRedeem (scriptSig : CScript) (evals : List EvalResult) (h : Fits stack)
    (hne : stack ≠ []) :
    Verifies flags (verifyRedeem crypto flags checker scriptSig stack evals).outcome := by
  unfold verifyRedeem
  split
  · exact Or.inl trivial
  · cases stack with
    | nil => exact absurd rfl hne
    | cons pubKey2 stack =>
      have hfits : Fits stack :=
        ⟨h.sized.subset (List.subset_cons_self _ _), Nat.le_of_succ_le h.length_le⟩
      have heval := @ensures_evalScript crypto flags checker _ hfits pubKey2
      dsimp only
      split
      next e he =>
        rw [he] at heval
        exact Or.inl (harmless_caught heval)
      next s _ =>
        exact (ensures_checkTop s).bind fun _ _ => ensures_checkCleanStack s

theorem ensures_verifyScript (scriptSig scriptPubKey : CScript) :
    Verifies flags (verifyScript crypto flags checker scriptSig scriptPubKey).outcome := by
  have hsig := @ensures_evalScript crypto flags checker _ fits_nil scriptSig
  unfold verifyScript
  split
  · exact Or.inl trivial
  dsimp only
  split
  next e he =>
    rw [he] at hsig
    exact Or.inl (harmless_caught hsig)
  next stackCopy hcopy =>
    rw [hcopy] at hsig
    have hpub := @ensures_evalScript crypto flags checker _ hsig scriptPubKey
    split
    next e he =>
      rw [he] at hpub
      exact Or.inl (harmless_caught hpub)
    next stack hstack =>
      have htop := @ensures_checkTop flags stack
      split
      next e he =>
        rw [he] at htop
        exact htop
      next =>
        split
        next hp2sh =>
          simp only [Bool.and_eq_true] at hp2sh
          apply ensures_verifyRedeem _ _ hsig
          rintro rfl
          obtain ⟨n, hn⟩ := @evalScript_nil_of_isPayToScriptHash crypto flags checker _ hp2sh.2
          rw [hn] at hstack
          cases hstack
        next => exact ensures_checkCleanStack stack

/-- **The interpreter is safe.**  From a stack that fits, `EvalScript` ends, with a script error
or the exception of a number as the only errors, and a stack that fits; and `VerifyScript`
fails no assertion but the one on its own flags, so none where it looks at a saved stack. -/
theorem evalScript_safe (crypto : ScriptCrypto) (flags : ℕ) (checker : BaseSignatureChecker) :
    (∀ stack script, stack.length ≤ 1000 → Sized stack →
      Ensures Stop.Harmless (fun s => s.length ≤ 1000 ∧ Sized s)
        (evalScript crypto flags checker stack script).outcome) ∧
    ∀ scriptSig scriptPubKey,
      Ensures (VerifyStop flags) (fun _ => True)
        (verifyScript crypto flags checker scriptSig scriptPubKey).outcome := by
  constructor
  · intro stack script hlen hs
    exact (ensures_evalScript ⟨hs, hlen⟩ script).imp (fun _ => id)
      fun s h => ⟨h.length_le, h.sized⟩
  · exact ensures_verifyScript

theorem evalScript_safe_dup : ([[1], [1]] : List Valtype).length ≤ 1000 ∧ Sized [[1], [1]] :=
  (evalScript_safe nullCrypto 0 .base).1 [[1]] [OP_DUP] (by decide)
    (by simp [Sized, MAX_SCRIPT_ELEMENT_SIZE])

end Interpreter

end Stonecoin
