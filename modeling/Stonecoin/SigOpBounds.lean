/-
The count of signature operations bounds the signatures that are checked.

`GetSigOpCount` reads a script from its first byte to its last and trusts the opcode before
`OP_CHECKMULTISIG` for the number of keys; the interpreter takes that number from the stack.
`Announced` ties the two: where the opcode before was `OP_1` to `OP_16` and the script is being
executed, its number is on top of the stack.

  * `checkSig_le_sigOpCount`: nor does a script, or the redeem script of a script hash.
-/
import Stonecoin.Interpreter
import Stonecoin.ConnectBlock

namespace Stonecoin

open Outcomes

/-! ### The count -/

theorem getSigOpCountLoop_add (fAccurate : Bool) : ∀ {fuel : ℕ} {lastOpcode : UInt8}
    {pc : CScript} {n : ℕ},
    getSigOpCountLoop fAccurate fuel lastOpcode pc n =
      n + getSigOpCountLoop fAccurate fuel lastOpcode pc 0 := by
  intro fuel
  induction fuel with
  | zero => exact fun {_ _ n} => (Nat.add_zero n).symm
  | succ fuel ih =>
    intro lastOpcode pc n
    rw [getSigOpCountLoop, getSigOpCountLoop]
    rcases getOp pc with - | ⟨opcode, vch, pc'⟩
    · rfl
    · dsimp only
      rw [ih, ih (n := 0 + _)]
      omega

theorem sigOpsOf_accurate_le (lastOpcode opcode : UInt8) :
    sigOpsOf true lastOpcode opcode ≤ sigOpsOf false lastOpcode opcode := by
  unfold sigOpsOf
  split
  · exact le_rfl
  · split
    · split
      next h =>
        have h16 : lastOpcode.toNat ≤ OP_16.toNat := h.2.2
        show lastOpcode.toNat - 80 ≤ 20
        have : OP_16.toNat = 96 := rfl
        omega
      next => exact le_rfl
    · exact le_rfl

theorem getSigOpCountLoop_accurate_le : ∀ {fuel : ℕ} {lastOpcode : UInt8} {pc : CScript},
    getSigOpCountLoop true fuel lastOpcode pc 0 ≤
      getSigOpCountLoop false fuel lastOpcode pc 0 := by
  intro fuel
  induction fuel with
  | zero => exact fun {_ _} => le_rfl
  | succ fuel ih =>
    intro lastOpcode pc
    rw [getSigOpCountLoop, getSigOpCountLoop]
    rcases getOp pc with - | ⟨opcode, vch, pc'⟩
    · exact le_rfl
    · dsimp only
      rw [getSigOpCountLoop_add, getSigOpCountLoop_add false]
      have hone := sigOpsOf_accurate_le lastOpcode opcode
      have hrest := @ih opcode pc'
      omega

theorem getSigOpCount_accurate_le (s : CScript) :
    getSigOpCount s true ≤ getSigOpCount s false :=
  getSigOpCountLoop_accurate_le

def getSigOpCountOf (scriptPubKey scriptSig : CScript) : ℕ :=
  if !isPayToScriptHash scriptPubKey then getSigOpCount scriptPubKey true
  else
    match lastPush scriptSig.length scriptSig [] with
    | none => 0
    | some subscript => getSigOpCount subscript true

namespace Interpreter

open ScriptError

variable {crypto : ScriptCrypto} {flags : ℕ} {checker : BaseSignatureChecker}

/-! ### Operations that check nothing -/

/-- The calls of `CheckSig` so far are at most `n`, also where the evaluation stops. -/
abbrev Calls (n : ℕ) (x : Except Fail EvalState) : Prop :=
  Ensures (fun f => f.nCheckSig ≤ n) (fun σ => σ.nCheckSig ≤ n) x

theorem ensures_withCount_calls {α : Type} {P : α → Prop} {n N : ℕ} (h : n ≤ N)
    {x : Except Stop α} (hP : ∀ a, x = .ok a → P a) :
    Ensures (fun f : Fail => f.nCheckSig ≤ N) P (withCount n x) := by
  cases x with
  | error e => exact h
  | ok a => exact hP a rfl

theorem withCount_calls {α : Type} {n N : ℕ} (h : n ≤ N) (x : Except Stop α) :
    Ensures (fun f : Fail => f.nCheckSig ≤ N) (fun _ => True) (withCount n x) :=
  ensures_withCount_calls h fun _ _ => trivial

section

variable {σ : EvalState} {N : ℕ}

theorem calls_fail (h : σ.nCheckSig ≤ N) (e : ScriptError) : Calls N (σ.fail e) := h

theorem calls_onStack (h : σ.nCheckSig ≤ N) (f : List Valtype → Except Stop (List Valtype)) :
    Calls N (σ.onStack f) :=
  (withCount_calls h _).bind fun _ _ => h

theorem calls_opIf (h : σ.nCheckSig ≤ N) (fNot fExec : Bool) :
    Calls N (σ.opIf fNot fExec) := by
  apply Ensures.ite
  · intro _
    apply Ensures.ite (fun _ => calls_fail h _)
    intro _
    apply (withCount_calls h _).bind
    intro vch _
    exact (withCount_calls h _).bind fun _ _ => h
  · exact fun _ => h

theorem calls_opElse (h : σ.nCheckSig ≤ N) : Calls N σ.opElse := by
  unfold EvalState.opElse
  split
  · exact h
  · exact h

theorem calls_opEndIf (h : σ.nCheckSig ≤ N) : Calls N σ.opEndIf := by
  unfold EvalState.opEndIf
  split
  · exact h
  · exact h

theorem calls_opToAltStack (h : σ.nCheckSig ≤ N) : Calls N σ.opToAltStack := by
  apply Ensures.ite (fun _ => calls_fail h _)
  intro _
  apply (withCount_calls h _).bind
  intro vch _
  exact (withCount_calls h _).bind fun _ _ => h

theorem calls_opFromAltStack (h : σ.nCheckSig ≤ N) : Calls N σ.opFromAltStack := by
  apply Ensures.ite (fun _ => calls_fail h _)
  intro _
  apply (withCount_calls h _).bind
  intro vch _
  exact (withCount_calls h _).bind fun _ _ => h

/-! ### Operations that check signatures -/

theorem calls_opCheckSig (h : σ.nCheckSig + 1 ≤ N) (fVerify : Bool) :
    Calls N (σ.opCheckSig crypto flags checker fVerify) := by
  have h0 : σ.nCheckSig ≤ N := Nat.le_of_succ_le h
  apply Ensures.ite (fun _ => calls_fail h0 _)
  intro _
  apply (withCount_calls h0 _).bind
  intro vchSig _
  apply (withCount_calls h0 _).bind
  intro vchPubKey _
  apply (withCount_calls h0 _).bind
  intro _ _
  apply (withCount_calls h0 _).bind
  intro _ _
  apply (withCount_calls h _).bind
  intro s _
  exact (withCount_calls h _).bind fun _ _ => h

theorem calls_multiSigLoop (stack : List Valtype) (scriptCode : CScript) :
    ∀ {nKeysCount nSigsCount isig ikey nCheckSig : ℕ}, nCheckSig + nKeysCount ≤ N →
    Ensures (fun f : Fail => f.nCheckSig ≤ N) (fun r => r.2 ≤ N)
      (multiSigLoop crypto flags checker stack scriptCode nKeysCount nSigsCount isig ikey
        nCheckSig) := by
  intro nKeysCount
  induction nKeysCount with
  | zero =>
    intro nSigsCount isig ikey nCheckSig h
    cases nSigsCount with
    | zero => exact h
    | succ n => exact h
  | succ nKeysCount ih =>
    intro nSigsCount isig ikey nCheckSig h
    have h0 : nCheckSig ≤ N := by omega
    cases nSigsCount with
    | zero => exact h0
    | succ nSigsCount =>
      apply (withCount_calls h0 _).bind
      intro vchSig _
      apply (withCount_calls h0 _).bind
      intro vchPubKey _
      apply (withCount_calls h0 _).bind
      intro _ _
      apply (withCount_calls h0 _).bind
      intro _ _
      apply Ensures.ite
      · exact fun _ => ensures_ok.mpr (show nCheckSig + 1 ≤ N by omega)
      · exact fun _ => ih (by omega)

theorem calls_multiSigs (fVerify : Bool) {nKeysCount : ℕ} (i : ℕ)
    (h : σ.nCheckSig + nKeysCount ≤ N) :
    Calls N (σ.multiSigs crypto flags checker fVerify nKeysCount i) := by
  have h0 : σ.nCheckSig ≤ N := by omega
  apply (withCount_calls h0 _).bind
  intro bn _
  apply Ensures.ite (fun _ => calls_fail h0 _)
  intro _
  apply Ensures.ite (fun _ => calls_fail h0 _)
  intro _
  apply (withCount_calls h0 _).bind
  intro scriptCode _
  apply (calls_multiSigLoop _ scriptCode h).bind
  intro r hr
  exact (withCount_calls hr _).bind fun _ _ => hr

theorem calls_opCheckMultiSig (fVerify : Bool) {n : ℕ} (h : σ.nCheckSig + n ≤ N)
    (hn : ∀ bn, numTop flags σ.stack 1 nDefaultMaxNumSize = .ok bn → 0 ≤ getint bn →
      getint bn ≤ MAX_PUBKEYS_PER_MULTISIG → (getint bn).toNat ≤ n) :
    Calls N (σ.opCheckMultiSig crypto flags checker fVerify) := by
  have h0 : σ.nCheckSig ≤ N := by omega
  apply Ensures.ite (fun _ => calls_fail h0 _)
  intro _
  apply (ensures_withCount_calls h0 hn).bind
  intro bn hbn
  apply Ensures.ite (fun _ => calls_fail h0 _)
  intro hrange
  have hkeys := hbn (by omega) (by omega)
  apply Ensures.ite (fun _ => calls_fail (σ := { σ with nOpCount := _ }) h0 _)
  intro _
  apply Ensures.ite (fun _ => calls_fail (σ := { σ with nOpCount := _ }) h0 _)
  intro _
  exact calls_multiSigs (σ := { σ with nOpCount := _ }) fVerify _
    (show σ.nCheckSig + _ ≤ N by omega)

theorem calls_execInstr (instr : Instr) (fExec : Bool) (pc : CScript) {n : ℕ}
    (h : σ.nCheckSig + n ≤ N) (hsig : ∀ fVerify, instr = .OP_CHECKSIG fVerify → 1 ≤ n)
    (hmulti : ∀ fVerify, instr = .OP_CHECKMULTISIG fVerify → ∀ bn,
      numTop flags σ.stack 1 nDefaultMaxNumSize = .ok bn → 0 ≤ getint bn →
        getint bn ≤ MAX_PUBKEYS_PER_MULTISIG → (getint bn).toNat ≤ n) :
    Calls N (execInstr crypto flags checker instr fExec pc σ) := by
  have h0 : σ.nCheckSig ≤ N := by omega
  cases instr with
  | pushNumber n =>
    show Calls N (σ.onStack fun stack => getvch n >>= fun vch => .ok (vch :: stack))
    exact calls_onStack h0 _
  | OP_NOP => exact h0
  | OP_IF fNot => exact calls_opIf h0 fNot fExec
  | OP_ELSE => exact calls_opElse h0
  | OP_ENDIF => exact calls_opEndIf h0
  | OP_RETURN => exact calls_fail h0 _
  | OP_TOALTSTACK => exact calls_opToAltStack h0
  | OP_FROMALTSTACK => exact calls_opFromAltStack h0
  | OP_CODESEPARATOR => exact h0
  | OP_CHECKSIG fVerify =>
    have hone := hsig fVerify rfl
    exact calls_opCheckSig (by omega) fVerify
  | OP_CHECKMULTISIG fVerify => exact calls_opCheckMultiSig fVerify h (hmulti fVerify rfl)
  | bad => exact calls_fail h0 _
  | _ => exact calls_onStack h0 _

end

/-! ### One opcode -/

theorem decodeOp_checkSig {opcode : UInt8} {fVerify : Bool}
    (h : decodeOp opcode = .OP_CHECKSIG fVerify) :
    opcode = OP_CHECKSIG ∨ opcode = OP_CHECKSIGVERIFY := by
  unfold decodeOp at h
  split at h
  next => cases h
  next =>
    split at h <;> cases h <;> rename_i hop
    · exact Or.inl (UInt8.toNat_inj.mp hop)
    · exact Or.inr (UInt8.toNat_inj.mp hop)

theorem decodeOp_checkMultiSig {opcode : UInt8} {fVerify : Bool}
    (h : decodeOp opcode = .OP_CHECKMULTISIG fVerify) :
    opcode = OP_CHECKMULTISIG ∨ opcode = OP_CHECKMULTISIGVERIFY := by
  unfold decodeOp at h
  split at h
  next => cases h
  next =>
    split at h <;> cases h <;> rename_i hop
    · exact Or.inl (UInt8.toNat_inj.mp hop)
    · exact Or.inr (UInt8.toNat_inj.mp hop)

def IsSmall (opcode : UInt8) : Prop := OP_1 ≤ opcode ∧ opcode ≤ OP_16

def smallNum (opcode : UInt8) : ℕ := opcode.toNat - 80

theorem IsSmall.range {opcode : UInt8} (h : IsSmall opcode) :
    80 + smallNum opcode = opcode.toNat ∧ 0 < smallNum opcode ∧ smallNum opcode ≤ 16 := by
  have h1 : OP_1.toNat ≤ opcode.toNat := h.1
  have h16 : opcode.toNat ≤ OP_16.toNat := h.2
  have e1 : OP_1.toNat = 81 := rfl
  have e16 : OP_16.toNat = 96 := rfl
  unfold smallNum
  omega

theorem decodeOp_small {opcode : UInt8} (h : IsSmall opcode) :
    decodeOp opcode = .pushNumber (smallNum opcode : ℕ) := by
  have hr := h.range
  have e1 : OP_1.toNat = 81 := rfl
  refine (if_pos h).trans ?_
  congr 1
  omega

/-- What the opcode before `OP_CHECKMULTISIG` promises: the number of `OP_1` to `OP_16` is on
top of the stack, if the script is being executed here. -/
def Announced (lastOpcode : UInt8) (σ : EvalState) : Prop :=
  IsSmall lastOpcode → σ.vfExec.all id = true →
    ∃ s, σ.stack = serialize (smallNum lastOpcode : ℕ) :: s

theorem announced_numTop {lastOpcode : UInt8} {σ : EvalState} (h : Announced lastOpcode σ)
    (hsmall : IsSmall lastOpcode) (hexec : σ.vfExec.all id = true) {bn : ℤ}
    (hbn : numTop flags σ.stack 1 nDefaultMaxNumSize = .ok bn) : bn = smallNum lastOpcode := by
  obtain ⟨s, hs⟩ := h hsmall hexec
  have hr := hsmall.range
  rw [hs] at hbn
  change scriptNum (serialize (smallNum lastOpcode : ℕ)) _ _ = _ at hbn
  rw [scriptNum_serialize_small hr.2.1 hr.2.2] at hbn
  exact (Except.ok.inj hbn).symm

theorem calls_evalOpcode {lastOpcode : UInt8} (opcode : UInt8) (vchPushValue : Valtype)
    (pc : CScript) {σ : EvalState} (h : Announced lastOpcode σ) :
    Calls (σ.nCheckSig + sigOpsOf true lastOpcode opcode)
      (evalOpcode crypto flags checker opcode vchPushValue pc σ) := by
  have h0 : σ.nCheckSig ≤ σ.nCheckSig + sigOpsOf true lastOpcode opcode := Nat.le_add_right _ _
  unfold evalOpcode
  apply Ensures.ite
  · intro _
    exact Ensures.ite (fun _ => calls_fail h0 _) fun _ => ensures_ok.mpr h0
  · intro _
    apply Ensures.ite
    case hy => exact fun _ => ensures_ok.mpr h0
    intro hexec
    apply calls_execInstr _ _ _ le_rfl
    · intro fVerify hd
      unfold sigOpsOf
      rw [if_pos (decodeOp_checkSig hd)]
    · intro fVerify hd bn hbn hpos hmax
      have hop := decodeOp_checkMultiSig hd
      have hnot : ¬ (opcode = OP_CHECKSIG ∨ opcode = OP_CHECKSIGVERIFY) := by
        rcases hop with rfl | rfl <;> decide
      -- `OP_CHECKMULTISIG` is not one of the opcodes that are looked at in a dead branch
      have hdead : ¬ opcode ≤ OP_ENDIF_BYTE := by
        rcases hop with rfl | rfl <;> decide
      have hall : σ.vfExec.all id = true := by
        simpa only [hdead, decide_false, Bool.and_false, Bool.or_false] using hexec
      unfold sigOpsOf
      rw [if_neg hnot, if_pos hop]
      split
      next hlast =>
        obtain rfl := announced_numTop h hlast.2 hall hbn
        have hr := IsSmall.range hlast.2
        show (getint (smallNum lastOpcode : ℕ)).toNat ≤ lastOpcode.toNat - 80
        unfold getint
        omega
      next =>
        have : MAX_PUBKEYS_PER_MULTISIG = 20 := rfl
        omega

theorem announced_evalOpcode {opcode : UInt8} {vchPushValue : Valtype} {pc : CScript}
    {σ σ' : EvalState}
    (h : evalOpcode crypto flags checker opcode vchPushValue pc σ = .ok σ') :
    Announced opcode σ' := by
  intro hsmall hexec
  have hr := hsmall.range
  have hpush : ¬ opcode ≤ OP_PUSHDATA4 := by
    intro hle
    have hle' : opcode.toNat ≤ OP_PUSHDATA4.toNat := hle
    have : OP_PUSHDATA4.toNat = 78 := rfl
    omega
  have hif : ¬ OP_IF_BYTE ≤ opcode := by
    intro hle
    have hle' : OP_IF_BYTE.toNat ≤ opcode.toNat := hle
    have : OP_IF_BYTE.toNat = 99 := rfl
    omega
  unfold evalOpcode at h
  simp only [hpush, hif, decide_false, Bool.and_false, Bool.false_and, Bool.or_false,
    Bool.false_eq_true, if_false] at h
  split at h
  next hall =>
    rw [decodeOp_small hsmall] at h
    change (σ.onStack fun stack => getvch (smallNum opcode : ℕ) >>= fun vch =>
      .ok (vch :: stack)) = _ at h
    have hvch : getvch (smallNum opcode : ℕ) = .ok (serialize (smallNum opcode : ℕ)) := by
      unfold getvch
      apply if_neg
      unfold INT64_MIN
      omega
    rw [hvch] at h
    cases h
    exact ⟨σ.stack, rfl⟩
  next hall =>
    obtain rfl := Except.ok.inj h
    exact absurd hexec hall

theorem ensures_evalStep_calls {lastOpcode : UInt8} (opcode : UInt8) (vchPushValue : Valtype)
    (pc : CScript) {σ : EvalState} (h : Announced lastOpcode σ) :
    Ensures (fun f => f.nCheckSig ≤ σ.nCheckSig + sigOpsOf true lastOpcode opcode)
      (fun σ' => σ'.nCheckSig ≤ σ.nCheckSig + sigOpsOf true lastOpcode opcode ∧
        Announced opcode σ')
      (evalStep crypto flags checker opcode vchPushValue pc σ) := by
  have hfail : ∀ f : Fail, f.nCheckSig = σ.nCheckSig →
      f.nCheckSig ≤ σ.nCheckSig + sigOpsOf true lastOpcode opcode := fun f hf => by omega
  apply ((countOpcode_spec opcode vchPushValue σ).imp hfail fun _ => id).bind
  rintro _ ⟨n, rfl⟩
  have hop := @calls_evalOpcode crypto flags checker _ opcode vchPushValue pc
    { σ with nOpCount := n } h
  apply (hop.and_ok fun _ => announced_evalOpcode).bind
  intro σ' h'
  exact Ensures.ite (fun _ => calls_fail h'.1 _) fun _ => ensures_ok.mpr h'

/-! ### A whole script -/

theorem evalLoop_calls : ∀ {fuel : ℕ} {lastOpcode : UInt8} {pc : CScript} {σ : EvalState},
    Announced lastOpcode σ →
    Calls (getSigOpCountLoop true fuel lastOpcode pc σ.nCheckSig)
      (evalLoop crypto flags checker fuel pc σ) := by
  intro fuel
  induction fuel with
  | zero =>
    intro lastOpcode pc σ h
    cases pc with
    | nil => exact ensures_ok.mpr le_rfl
    | cons b bs => exact ensures_error.mpr le_rfl
  | succ fuel ih =>
    intro lastOpcode pc σ h
    cases pc with
    | nil => exact ensures_ok.mpr le_rfl
    | cons b bs =>
      rw [evalLoop, getSigOpCountLoop]
      rcases hop : getOp (b :: bs) with - | ⟨opcode, vchPushValue, pc⟩
      · exact calls_fail le_rfl _
      · dsimp only
        have hstep := @ensures_evalStep_calls crypto flags checker _ opcode vchPushValue pc σ h
        rw [getSigOpCountLoop_add]
        apply (hstep.imp (fun f hf => le_trans hf (Nat.le_add_right _ _)) fun _ => id).bind
        intro σ' h'
        have hrest := @ih _ pc _ h'.2
        rw [getSigOpCountLoop_add] at hrest
        exact hrest.imp (fun f hf => by omega) fun σ'' hσ'' => by omega

theorem evalScript_calls (stack : List Valtype) (script : CScript) :
    (evalScript crypto flags checker stack script).nCheckSig ≤ getSigOpCount script true := by
  have hfirst : Announced OP_INVALIDOPCODE (.start stack script) :=
    fun hsmall => absurd hsmall.2 (by decide)
  have hloop := @evalLoop_calls crypto flags checker script.length _ script _ hfirst
  unfold evalScript
  split
  · exact Nat.zero_le _
  · split
    next f hf =>
      rw [hf] at hloop
      exact hloop
    next σ hσ =>
      rw [hσ] at hloop
      split
      · exact hloop
      · exact hloop

/-! ### Redeem scripts -/

def TopCounted (data : List UInt8) (stack : List Valtype) : Prop :=
  ∀ vch s, stack = vch :: s → getSigOpCount vch true ≤ getSigOpCount data true

theorem getSigOpCount_serialize {n : ℤ} (h1 : -1 ≤ n) (h16 : n ≤ 16) :
    getSigOpCount (serialize n) true = 0 := by
  interval_cases n <;> rfl

theorem decodeOp_push {opcode : UInt8} (h : ¬ opcode ≤ OP_PUSHDATA4) (h16 : opcode ≤ OP_16) :
    (∃ n : ℤ, decodeOp opcode = .pushNumber n ∧ -1 ≤ n ∧ n ≤ 16) ∨ decodeOp opcode = .bad := by
  by_cases hsmall : IsSmall opcode
  · have hr := hsmall.range
    exact Or.inl ⟨_, decodeOp_small hsmall, by omega, by omega⟩
  · have h4 : ¬ opcode.toNat ≤ OP_PUSHDATA4.toNat := h
    have h1 : ¬ OP_1.toNat ≤ opcode.toNat := fun h1 => hsmall ⟨h1, h16⟩
    have e4 : OP_PUSHDATA4.toNat = 78 := rfl
    have e1 : OP_1.toNat = 81 := rfl
    have hcases : opcode.toNat = 79 ∨ opcode.toNat = 80 := by omega
    rcases hcases with hop | hop
    · obtain rfl : opcode = 79 := UInt8.toNat_inj.mp hop
      exact Or.inl ⟨-1, rfl, by decide, by decide⟩
    · obtain rfl : opcode = 80 := UInt8.toNat_inj.mp hop
      exact Or.inr rfl

theorem evalStep_push {opcode : UInt8} {vchPushValue : Valtype} {pc : CScript}
    {σ σ' : EvalState} (h16 : opcode ≤ OP_16) (hexec : σ.vfExec = [])
    (h : evalStep crypto flags checker opcode vchPushValue pc σ = .ok σ') :
    σ'.vfExec = [] ∧ TopCounted vchPushValue σ'.stack := by
  have hstep : Ensures (fun _ => True)
      (fun σ' => σ'.vfExec = [] ∧ TopCounted vchPushValue σ'.stack)
      (evalStep crypto flags checker opcode vchPushValue pc σ) := by
    apply ((countOpcode_spec opcode vchPushValue σ).imp (fun _ _ => trivial) fun _ => id).bind
    rintro _ ⟨n, rfl⟩
    have hop : Ensures (fun _ => True)
        (fun σ' => σ'.vfExec = [] ∧ TopCounted vchPushValue σ'.stack)
        (evalOpcode crypto flags checker opcode vchPushValue pc { σ with nOpCount := n }) := by
      unfold evalOpcode
      simp only [hexec, List.all_nil, Bool.true_and, Bool.true_or, if_true, decide_eq_true_eq]
      apply Ensures.ite
      · intro _
        apply Ensures.ite (fun _ => ensures_error.mpr trivial)
        intro _
        refine ⟨rfl, fun vch s hs => ?_⟩
        cases hs
        exact le_rfl
      · intro hpush
        rcases decodeOp_push hpush h16 with ⟨m, hm, h1, h16⟩ | hbad
        · rw [hm]
          have hvch : getvch m = .ok (serialize m) := by
            unfold getvch
            apply if_neg
            unfold INT64_MIN
            omega
          show Ensures _ _ (EvalState.onStack _ fun stack => getvch m >>= fun vch =>
            .ok (vch :: stack))
          rw [hvch]
          refine ⟨rfl, fun vch s hs => ?_⟩
          cases hs
          rw [getSigOpCount_serialize h1 h16]
          exact Nat.zero_le _
        · rw [hbad]
          exact ensures_error.mpr trivial
    apply hop.bind
    intro σ'' h''
    exact Ensures.ite (fun _ => ensures_error.mpr trivial) fun _ => ensures_ok.mpr h''
  exact hstep.of_ok h

theorem evalLoop_push : ∀ {fuel : ℕ} {pc : CScript} {data : List UInt8} {σ σ' : EvalState},
    isPushOnlyLoop fuel pc = true → σ.vfExec = [] → TopCounted data σ.stack →
    evalLoop crypto flags checker fuel pc σ = .ok σ' →
    ∃ subscript, lastPush fuel pc data = some subscript ∧ TopCounted subscript σ'.stack := by
  intro fuel
  induction fuel with
  | zero =>
    intro pc data σ σ' _ _ htop h
    cases pc with
    | nil =>
      cases h
      exact ⟨data, rfl, htop⟩
    | cons b bs => cases h
  | succ fuel ih =>
    intro pc data σ σ' hpush hexec htop h
    cases pc with
    | nil =>
      cases h
      exact ⟨data, rfl, htop⟩
    | cons b bs =>
      rw [isPushOnlyLoop] at hpush
      rw [evalLoop] at h
      rw [lastPush, if_neg (by simp)]
      rcases hop : getOp (b :: bs) with - | ⟨opcode, vchPushValue, pc⟩
      · rw [hop] at hpush
        cases hpush
      · rw [hop] at hpush h
        dsimp only at hpush h ⊢
        split at hpush
        next => cases hpush
        next h16 =>
          rw [if_neg h16]
          cases hstep : evalStep crypto flags checker opcode vchPushValue pc σ with
          | error f =>
            rw [hstep] at h
            cases h
          | ok σ'' =>
            rw [hstep] at h
            have hs := evalStep_push (UInt8.not_lt.mp h16) hexec hstep
            exact ih hpush hs.1 hs.2 h
      · exact List.cons_ne_nil b bs

theorem evalScript_push {scriptSig : CScript} {stackCopy : List Valtype}
    (hpush : isPushOnly scriptSig = true)
    (h : (evalScript crypto flags checker [] scriptSig).outcome = .ok stackCopy) :
    ∃ subscript, lastPush scriptSig.length scriptSig [] = some subscript ∧
      TopCounted subscript stackCopy := by
  unfold evalScript at h
  split at h
  next => cases h
  next =>
    split at h
    next => cases h
    next σ hσ =>
      split at h
      next => cases h
      next =>
        cases h
        exact evalLoop_push hpush rfl (fun vch s hs => by cases hs) hσ

theorem verifyRedeem_calls {scriptPubKey scriptSig : CScript} {stackCopy : List Valtype}
    {r r' r'' : EvalResult} (hp : isPayToScriptHash scriptPubKey = true)
    (hcopy : (evalScript crypto flags checker [] scriptSig).outcome = .ok stackCopy)
    (h : (verifyRedeem crypto flags checker scriptSig stackCopy [r, r']).evals[2]? = some r'') :
    r''.nCheckSig ≤ getSigOpCountOf scriptPubKey scriptSig := by
  unfold verifyRedeem at h
  split at h
  next => cases h
  next hpush =>
    cases stackCopy with
    | nil => cases h
    | cons pubKey2 stack =>
      obtain ⟨subscript, hlast, htop⟩ := evalScript_push (by simpa using hpush) hcopy
      have hr : r'' = evalScript crypto flags checker stack pubKey2 := by
        dsimp only at h
        split at h
        next => exact (Option.some.inj h).symm
        next => exact (Option.some.inj h).symm
      rw [hr]
      unfold getSigOpCountOf
      rw [hp, hlast]
      exact (evalScript_calls stack pubKey2).trans (htop pubKey2 stack rfl)

/-- **The count of signature operations bounds the work**: for every script, whether it ends
well or not, and for the redeem script of a script hash. -/
theorem checkSig_le_sigOpCount (crypto : ScriptCrypto) (flags : ℕ)
    (checker : BaseSignatureChecker) :
    (∀ stack s, (evalScript crypto flags checker stack s).nCheckSig ≤ getSigOpCount s true ∧
      getSigOpCount s true ≤ getSigOpCount s false) ∧
    ∀ p q r, isPayToScriptHash p = true →
      (verifyScript crypto flags checker q p).evals[2]? = some r →
        r.nCheckSig ≤ getSigOpCountOf p q := by
  refine ⟨fun stack s => ⟨evalScript_calls stack s, getSigOpCount_accurate_le s⟩, ?_⟩
  intro p q r hp h
  unfold verifyScript at h
  split at h
  next => cases h
  next =>
    dsimp only at h
    split at h
    next => cases h
    next stackCopy hcopy =>
      split at h
      next => cases h
      next =>
        split at h
        next => cases h
        next =>
          split at h
          next => exact verifyRedeem_calls hp hcopy h
          next => cases h

theorem checkSig_le_sigOpCount_redeem :
    1 ≤ getSigOpCountOf (getScriptForDestination (.scriptID UInt160.null))
      [OP_1, OP_1, 1, OP_CHECKSIG] :=
  (checkSig_le_sigOpCount nullCrypto SCRIPT_VERIFY_P2SH .base).2
    (getScriptForDestination (.scriptID UInt160.null)) [OP_1, OP_1, 1, OP_CHECKSIG]
    (evalScript nullCrypto SCRIPT_VERIFY_P2SH .base [[1], [1]] [OP_CHECKSIG]) rfl rfl

end Interpreter

end Stonecoin
