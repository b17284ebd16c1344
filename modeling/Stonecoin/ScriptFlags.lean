/-
Fewer flags accept more scripts.

A run under flags `F` and one under fewer flags `G` go through the same states as long as the
first does not stop: `Refines`, for each operation, one pass, the loop and `VerifyScript`.

There is one place where a flag lets a script pass.  Without `CHECKLOCKTIMEVERIFY` its opcode is
an upgradable `NOP`, which `DISCOURAGE_UPGRADABLE_NOPS` forbids, and likewise for
`CHECKSEQUENCEVERIFY`; `Stricter` asks that they are not taken away there.

  * `verifyScript_flags`: a success under `F` is a success under `G`, and standard scripts pass
        the checks of `ConnectBlock`;
  * `verifyScript_flags_discourage`: why the upgradable `NOP`s are an exception.
-/
import Stonecoin.Interpreter

namespace Stonecoin

namespace Interpreter

open Outcomes ScriptError

/-! ### Sets of flags -/

def Contains (F G : ℕ) : Prop := G &&& F = G

theorem Contains.has {F G : ℕ} (h : Contains F G) {flag : ℕ} (hG : has G flag = true) :
    has F flag = true := by
  unfold Contains at h
  simp only [Interpreter.has, decide_eq_true_eq] at hG ⊢
  intro hF
  apply hG
  calc G &&& flag = G &&& F &&& flag := by rw [h]
    _ = G &&& (F &&& flag) := Nat.and_assoc _ _ _
    _ = 0 := by rw [hF, Nat.and_zero]

/-- `F` contains `G`, and takes no opcode out of the upgradable `NOP`s where these are
discouraged. -/
structure Stricter (F G : ℕ) : Prop where
  contains : Contains F G
  lockTime : has G SCRIPT_VERIFY_DISCOURAGE_UPGRADABLE_NOPS = true →
    has F SCRIPT_VERIFY_CHECKLOCKTIMEVERIFY = true → has G SCRIPT_VERIFY_CHECKLOCKTIMEVERIFY = true
  sequence : has G SCRIPT_VERIFY_DISCOURAGE_UPGRADABLE_NOPS = true →
    has F SCRIPT_VERIFY_CHECKSEQUENCEVERIFY = true →
      has G SCRIPT_VERIFY_CHECKSEQUENCEVERIFY = true

def CleanWithP2SH (flags : ℕ) : Prop :=
  has flags SCRIPT_VERIFY_CLEANSTACK = true → has flags SCRIPT_VERIFY_P2SH = true

variable {crypto : ScriptCrypto} {checker : BaseSignatureChecker} {F G : ℕ}

/-! ### Operations on the stack -/

theorem refines_needs {stack : List Valtype} {n : ℕ} {x y : Except Stop (List Valtype)}
    (h : Refines x y) : Refines (needs stack n x) (needs stack n y) :=
  Refines.ite (fun _ => .refl _) fun _ => h

theorem refines_numTop (h : Contains F G) (stack : List Valtype) (i nMaxNumSize : ℕ) :
    Refines (numTop F stack i nMaxNumSize) (numTop G stack i nMaxNumSize) :=
  (Refines.refl _).bind fun _ => scriptNum_relax h.has

theorem refines_opPick (h : Contains F G) (fRoll : Bool) (stack : List Valtype) :
    Refines (opPick F fRoll stack) (opPick G fRoll stack) := by
  apply refines_needs
  exact (refines_numTop h stack _ _).bind fun _ => .refl _

theorem refines_opUnary (h : Contains F G) (op : UnaryOp) (stack : List Valtype) :
    Refines (opUnary F op stack) (opUnary G op stack) := by
  apply refines_needs
  exact (refines_numTop h stack _ _).bind fun _ => .refl _

theorem refines_opBinary (h : Contains F G) (op : BinaryOp) (stack : List Valtype) :
    Refines (opBinary F op stack) (opBinary G op stack) := by
  apply refines_needs
  apply (refines_numTop h stack _ _).bind
  intro bn1
  exact (refines_numTop h stack _ _).bind fun _ => .refl _

theorem refines_opWithin (h : Contains F G) (stack : List Valtype) :
    Refines (opWithin F stack) (opWithin G stack) := by
  apply refines_needs
  apply (refines_numTop h stack _ _).bind
  intro bn1
  apply (refines_numTop h stack _ _).bind
  intro bn2
  exact (refines_numTop h stack _ _).bind fun _ => .refl _

theorem refines_upgradableNop (h : Contains F G) (stack : List Valtype) :
    Refines (upgradableNop F stack) (upgradableNop G stack) :=
  Refines.check h.has (.refl _)

theorem refines_locked {flag : ℕ} {stack : List Valtype} {x y : Except Stop (List Valtype)}
    (h : Contains F G)
    (hnop : has G SCRIPT_VERIFY_DISCOURAGE_UPGRADABLE_NOPS = true → has F flag = true →
      has G flag = true)
    (hxy : Refines x y) (hstack : ∀ s, x = .ok s → s = stack) :
    Refines (if !has F flag then upgradableNop F stack else x)
      (if !has G flag then upgradableNop G stack else y) := by
  intro s hs
  cases hF : has F flag with
  | false =>
    have hG : has G flag = false := by
      cases hG : has G flag with
      | false => rfl
      | true => exact absurd (h.has hG) (by simp [hF])
    rw [hF] at hs
    rw [hG]
    exact refines_upgradableNop h stack s hs
  | true =>
    rw [hF] at hs
    cases hG : has G flag with
    | true => exact hxy s hs
    | false =>
      have hd : ¬ has G SCRIPT_VERIFY_DISCOURAGE_UPGRADABLE_NOPS = true := fun hd =>
        absurd (hnop hd hF) (by simp [hG])
      show upgradableNop G stack = .ok s
      unfold upgradableNop
      rw [if_neg hd, hstack s hs]

theorem refines_opCheckLockTimeVerify (h : Stricter F G) (stack : List Valtype) :
    Refines (opCheckLockTimeVerify F checker stack) (opCheckLockTimeVerify G checker stack) := by
  apply refines_locked h.contains h.lockTime
  · apply refines_needs
    exact (refines_numTop h.contains stack _ _).bind fun _ => .refl _
  · intro s hs
    unfold needs at hs
    split at hs
    · cases hs
    · cases hn : numTop F stack 1 5 with
      | error e =>
        rw [hn] at hs
        cases hs
      | ok v =>
        rw [hn] at hs
        change ite _ _ (ite _ _ _) = _ at hs
        split_ifs at hs
        exact (Except.ok.inj hs).symm

theorem refines_opCheckSequenceVerify (h : Stricter F G) (stack : List Valtype) :
    Refines (opCheckSequenceVerify F checker stack)
      (opCheckSequenceVerify G checker stack) := by
  apply refines_locked h.contains h.sequence
  · apply refines_needs
    exact (refines_numTop h.contains stack _ _).bind fun _ => .refl _
  · intro s hs
    unfold needs at hs
    split at hs
    · cases hs
    · cases hn : numTop F stack 1 5 with
      | error e =>
        rw [hn] at hs
        cases hs
      | ok v =>
        rw [hn] at hs
        change ite _ _ (ite _ _ (ite _ _ _)) = _ at hs
        split_ifs at hs
        · exact (Except.ok.inj hs).symm
        · exact (Except.ok.inj hs).symm

/-! ### Signatures -/

theorem refines_checkSignatureEncoding (h : Contains F G) (vchSig : Valtype) :
    Refines (checkSignatureEncoding crypto F vchSig) (checkSignatureEncoding crypto G vchSig) := by
  have hhash : Refines
      (if has F SCRIPT_VERIFY_STRICTENC && !isDefinedHashtypeSignature vchSig then
        .error (.error SCRIPT_ERR_SIG_HASHTYPE) else .ok () : Except Stop Unit)
      (if has G SCRIPT_VERIFY_STRICTENC && !isDefinedHashtypeSignature vchSig then
        .error (.error SCRIPT_ERR_SIG_HASHTYPE) else .ok () : Except Stop Unit) := by
    apply Refines.check _ (.refl _)
    simp only [Bool.and_eq_true]
    exact fun hc => ⟨h.has hc.1, hc.2⟩
  apply Refines.ite (fun _ => .refl _)
  intro _
  apply Refines.check
  · simp only [Bool.and_eq_true]
    exact fun hc => ⟨h.has hc.1, hc.2⟩
  · intro u hu
    cases hG : has G SCRIPT_VERIFY_LOW_S with
    | true =>
      rw [h.has hG] at hu
      exact (Refines.refl (isLowDERSignature crypto vchSig)).bind (fun _ => hhash) u hu
    | false =>
      -- without `LOW_S` that check is gone, whatever it said
      apply hhash u
      cases hF : has F SCRIPT_VERIFY_LOW_S with
      | false =>
        rw [hF] at hu
        exact hu
      | true =>
        rw [hF] at hu
        cases hlow : isLowDERSignature crypto vchSig with
        | error e =>
          rw [hlow] at hu
          cases hu
        | ok v =>
          rw [hlow] at hu
          exact hu

theorem refines_checkPubKeyEncoding (h : Contains F G) (vchPubKey : Valtype) :
    Refines (checkPubKeyEncoding F vchPubKey) (checkPubKeyEncoding G vchPubKey) := by
  apply Refines.check _ (.refl _)
  simp only [Bool.and_eq_true]
  exact fun hc => ⟨h.has hc.1, hc.2⟩

theorem refines_withCount {α : Type} {x y : Except Stop α} (h : Refines x y) (n : ℕ) :
    Refines (withCount n x) (withCount n y) := by
  intro a ha
  cases x with
  | error e => cases ha
  | ok b =>
    rw [h b rfl]
    exact ha

theorem refines_onStack {f g : List Valtype → Except Stop (List Valtype)} {σ : EvalState}
    (h : Refines (f σ.stack) (g σ.stack)) : Refines (σ.onStack f) (σ.onStack g) :=
  (refines_withCount h _).bind fun _ => .refl _

theorem refines_opCheckSig (h : Contains F G) (fVerify : Bool) (σ : EvalState) :
    Refines (σ.opCheckSig crypto F checker fVerify) (σ.opCheckSig crypto G checker fVerify) := by
  apply Refines.ite (fun _ => .refl _)
  intro _
  apply (Refines.refl _).bind
  intro vchSig
  apply (Refines.refl _).bind
  intro vchPubKey
  apply (refines_withCount (refines_checkSignatureEncoding h vchSig) _).bind
  intro _
  apply (refines_withCount (refines_checkPubKeyEncoding h vchPubKey) _).bind
  exact fun _ => .refl _

theorem refines_multiSigLoop (h : Contains F G) (stack : List Valtype) (scriptCode : CScript) :
    ∀ {nKeysCount nSigsCount isig ikey nCheckSig : ℕ},
    Refines
      (multiSigLoop crypto F checker stack scriptCode nKeysCount nSigsCount isig ikey nCheckSig)
      (multiSigLoop crypto G checker stack scriptCode nKeysCount nSigsCount isig ikey
        nCheckSig) := by
  intro nKeysCount
  induction nKeysCount with
  | zero =>
    intro nSigsCount
    cases nSigsCount with
    | zero => exact .refl _
    | succ n => exact .refl _
  | succ nKeysCount ih =>
    intro nSigsCount isig ikey nCheckSig
    cases nSigsCount with
    | zero => exact .refl _
    | succ nSigsCount =>
      apply (Refines.refl _).bind
      intro vchSig
      apply (Refines.refl _).bind
      intro vchPubKey
      apply (refines_withCount (refines_checkSignatureEncoding h vchSig) _).bind
      intro _
      apply (refines_withCount (refines_checkPubKeyEncoding h vchPubKey) _).bind
      intro _
      exact Refines.ite (fun _ => .refl _) fun _ => ih

theorem refines_multiSigClean (h : Contains F G) (i : ℕ) (fVerify fSuccess : Bool)
    (stack : List Valtype) :
    Refines (multiSigClean F i fVerify fSuccess stack)
      (multiSigClean G i fVerify fSuccess stack) := by
  apply (Refines.refl _).bind
  intro s
  apply refines_needs
  apply (Refines.refl _).bind
  intro dummy
  apply Refines.check _ (.refl _)
  simp only [Bool.and_eq_true]
  exact fun hc => ⟨h.has hc.1, hc.2⟩

theorem refines_opCheckMultiSig (h : Contains F G) (fVerify : Bool) (σ : EvalState) :
    Refines (σ.opCheckMultiSig crypto F checker fVerify)
      (σ.opCheckMultiSig crypto G checker fVerify) := by
  apply Refines.ite (fun _ => .refl _)
  intro _
  apply (refines_withCount (refines_numTop h _ _ _) _).bind
  intro bn
  apply Refines.ite (fun _ => .refl _)
  intro _
  apply Refines.ite (fun _ => .refl _)
  intro _
  apply Refines.ite (fun _ => .refl _)
  intro _
  -- the signatures
  apply (refines_withCount (refines_numTop h _ _ _) _).bind
  intro bn'
  apply Refines.ite (fun _ => .refl _)
  intro _
  apply Refines.ite (fun _ => .refl _)
  intro _
  apply (Refines.refl _).bind
  intro scriptCode
  apply (refines_multiSigLoop h _ scriptCode).bind
  intro r
  exact (refines_withCount (refines_multiSigClean h _ _ _ _) _).bind fun _ => .refl _

/-! ### The loop -/

theorem refines_execInstr (h : Stricter F G) (instr : Instr) (fExec : Bool) (pc : CScript)
    (σ : EvalState) :
    Refines (execInstr crypto F checker instr fExec pc σ)
      (execInstr crypto G checker instr fExec pc σ) := by
  cases instr with
  | OP_CHECKLOCKTIMEVERIFY => exact refines_onStack (refines_opCheckLockTimeVerify h _)
  | OP_CHECKSEQUENCEVERIFY => exact refines_onStack (refines_opCheckSequenceVerify h _)
  | upgradableNop => exact refines_onStack (refines_upgradableNop h.contains _)
  | OP_PICK fRoll => exact refines_onStack (refines_opPick h.contains fRoll _)
  | unary op => exact refines_onStack (refines_opUnary h.contains op _)
  | binary op => exact refines_onStack (refines_opBinary h.contains op _)
  | OP_WITHIN => exact refines_onStack (refines_opWithin h.contains _)
  | OP_CHECKSIG fVerify => exact refines_opCheckSig h.contains fVerify σ
  | OP_CHECKMULTISIG fVerify => exact refines_opCheckMultiSig h.contains fVerify σ
  | _ => exact .refl _

theorem refines_evalStep (h : Stricter F G) (opcode : UInt8) (vchPushValue : Valtype)
    (pc : CScript) (σ : EvalState) :
    Refines (evalStep crypto F checker opcode vchPushValue pc σ)
      (evalStep crypto G checker opcode vchPushValue pc σ) := by
  apply (Refines.refl _).bind
  intro σ'
  have hop : Refines (evalOpcode crypto F checker opcode vchPushValue pc σ')
      (evalOpcode crypto G checker opcode vchPushValue pc σ') := by
    apply Refines.ite
    · intro _
      apply Refines.check _ (.refl _)
      simp only [Bool.and_eq_true]
      exact fun hc => ⟨h.contains.has hc.1, hc.2⟩
    · intro _
      exact Refines.ite (fun _ => refines_execInstr h _ _ pc σ') fun _ => .refl _
  exact hop.bind fun _ => .refl _

theorem refines_evalLoop (h : Stricter F G) : ∀ {fuel : ℕ} {pc : CScript} {σ : EvalState},
    Refines (evalLoop crypto F checker fuel pc σ) (evalLoop crypto G checker fuel pc σ) := by
  intro fuel
  induction fuel with
  | zero =>
    intro pc σ
    cases pc with
    | nil => exact .refl _
    | cons b bs => exact .refl _
  | succ fuel ih =>
    intro pc σ
    cases pc with
    | nil => exact .refl _
    | cons b bs =>
      rw [evalLoop, evalLoop]
      rcases getOp (b :: bs) with - | ⟨opcode, vchPushValue, pc⟩
      · exact .refl _
      · exact (refines_evalStep h opcode vchPushValue pc σ).bind fun _ => ih

theorem refines_evalScript (h : Stricter F G) (stack : List Valtype) (script : CScript) :
    Refines (evalScript crypto F checker stack script).outcome
      (evalScript crypto G checker stack script).outcome := by
  intro s hs
  unfold evalScript at hs ⊢
  split at hs
  next => cases hs
  next hlen =>
    rw [if_neg hlen]
    split at hs
    next => cases hs
    next σ hσ =>
      rw [refines_evalLoop h σ hσ]
      exact hs

/-! ### `VerifyScript` -/

theorem checkCleanStack_of_not {stack : List Valtype} (hG : CleanWithP2SH G)
    (h : has G SCRIPT_VERIFY_P2SH = false) : checkCleanStack G stack = .ok () := by
  unfold checkCleanStack
  apply if_neg
  intro hc
  rw [hG hc] at h
  cases h

theorem refines_checkCleanStack (h : Contains F G) (hG : CleanWithP2SH G)
    (stack : List Valtype) : Refines (checkCleanStack F stack) (checkCleanStack G stack) := by
  intro u hu
  cases hp : has G SCRIPT_VERIFY_P2SH with
  | false => rw [checkCleanStack_of_not hG hp]
  | true =>
    have hpF := h.has hp
    unfold checkCleanStack at hu ⊢
    rw [hpF] at hu
    rw [hp]
    cases hc : has G SCRIPT_VERIFY_CLEANSTACK with
    | false => rfl
    | true =>
      rw [h.has hc] at hu
      exact hu

theorem refines_verifyRedeem (h : Stricter F G) (hG : CleanWithP2SH G) (scriptSig : CScript)
    (stackCopy : List Valtype) (evals evals' : List EvalResult) :
    Refines (verifyRedeem crypto F checker scriptSig stackCopy evals).outcome
      (verifyRedeem crypto G checker scriptSig stackCopy evals').outcome := by
  intro u hu
  unfold verifyRedeem at hu ⊢
  split at hu
  next => cases hu
  next hpush =>
    rw [if_neg hpush]
    cases stackCopy with
    | nil => cases hu
    | cons pubKey2 stack =>
      dsimp only at hu ⊢
      split at hu
      next => cases hu
      next s hs =>
        rw [refines_evalScript h _ _ s hs]
        exact (Refines.refl (checkTop s)).bind
          (fun _ => refines_checkCleanStack h.contains hG s) u hu

theorem refines_verifyScript (h : Stricter F G) (hG : CleanWithP2SH G)
    (scriptSig scriptPubKey : CScript) :
    Refines (verifyScript crypto F checker scriptSig scriptPubKey).outcome
      (verifyScript crypto G checker scriptSig scriptPubKey).outcome := by
  intro u hu
  unfold verifyScript at hu ⊢
  split at hu
  next => cases hu
  next hpush =>
    have hpush' : ¬ (has G SCRIPT_VERIFY_SIGPUSHONLY && !isPushOnly scriptSig) = true := by
      simp only [Bool.and_eq_true] at hpush ⊢
      exact fun hc => hpush ⟨h.contains.has hc.1, hc.2⟩
    rw [if_neg hpush']
    dsimp only at hu ⊢
    split at hu
    next => cases hu
    next stackCopy hcopy =>
      rw [refines_evalScript h _ _ stackCopy hcopy]
      dsimp only
      split at hu
      next => cases hu
      next stack hstack =>
        rw [refines_evalScript h _ _ stack hstack]
        dsimp only
        split at hu
        next => cases hu
        next =>
          cases hp : has G SCRIPT_VERIFY_P2SH with
          | false =>
            -- the redeem script is left out
            exact checkCleanStack_of_not hG hp
          | true =>
            rw [h.contains.has hp] at hu
            rw [Bool.true_and] at hu ⊢
            split at hu
            next hsh =>
              rw [if_pos hsh]
              exact refines_verifyRedeem h hG scriptSig stackCopy _ _ u hu
            next hsh =>
              rw [if_neg hsh]
              exact refines_checkCleanStack h.contains hG stack u hu

/-! ### The flags of the memory pool and of a block -/

def MANDATORY_SCRIPT_VERIFY_FLAGS : ℕ := SCRIPT_VERIFY_P2SH

def STANDARD_SCRIPT_VERIFY_FLAGS : ℕ :=
  MANDATORY_SCRIPT_VERIFY_FLAGS ||| SCRIPT_VERIFY_DERSIG ||| SCRIPT_VERIFY_STRICTENC |||
    SCRIPT_VERIFY_MINIMALDATA ||| SCRIPT_VERIFY_NULLDUMMY |||
    SCRIPT_VERIFY_DISCOURAGE_UPGRADABLE_NOPS ||| SCRIPT_VERIFY_CLEANSTACK |||
    SCRIPT_VERIFY_CHECKLOCKTIMEVERIFY ||| SCRIPT_VERIFY_CHECKSEQUENCEVERIFY |||
    SCRIPT_VERIFY_LOW_S

/-- `flags` of `ConnectBlock`, by the rules in force. -/
def connectFlags (fStrictPayToScriptHash fDersig fLockTime fSequence : Bool) : ℕ :=
  (if fStrictPayToScriptHash then SCRIPT_VERIFY_P2SH else 0) |||
    (if fDersig then SCRIPT_VERIFY_DERSIG else 0) |||
    (if fLockTime then SCRIPT_VERIFY_CHECKLOCKTIMEVERIFY else 0) |||
    (if fSequence then SCRIPT_VERIFY_CHECKSEQUENCEVERIFY else 0)

theorem stricter_connectFlags (a b c d : Bool) :
    Stricter STANDARD_SCRIPT_VERIFY_FLAGS (connectFlags a b c d) := by
  constructor
  · cases a <;> cases b <;> cases c <;> cases d <;> rfl
  -- the upgradable `NOP`s are never discouraged in a block
  · intro hnop
    cases a <;> cases b <;> cases c <;> cases d <;> cases hnop
  · intro hnop
    cases a <;> cases b <;> cases c <;> cases d <;> cases hnop

theorem cleanWithP2SH_connectFlags (a b c d : Bool) : CleanWithP2SH (connectFlags a b c d) := by
  intro hclean
  cases a <;> cases b <;> cases c <;> cases d <;> cases hclean

/-- **Flags only restrict**, the upgradable `NOP`s apart: a script that passes under `F` passes
under the fewer flags `G`, and one that passes as standard passes in every block. -/
theorem verifyScript_flags (crypto : ScriptCrypto) (checker : BaseSignatureChecker)
    (scriptSig scriptPubKey : CScript) :
    (∀ F G, Stricter F G → CleanWithP2SH F → CleanWithP2SH G →
      (verifyScript crypto F checker scriptSig scriptPubKey).outcome = .ok () →
        (verifyScript crypto G checker scriptSig scriptPubKey).outcome = .ok ()) ∧
    ∀ a b c d, (verifyScript crypto STANDARD_SCRIPT_VERIFY_FLAGS checker scriptSig
        scriptPubKey).outcome = .ok () →
      (verifyScript crypto (connectFlags a b c d) checker scriptSig scriptPubKey).outcome
        = .ok () := by
  constructor
  · exact fun F G h _ hG hF => refines_verifyScript h hG scriptSig scriptPubKey () hF
  · exact fun a b c d hF => refines_verifyScript (stricter_connectFlags a b c d)
      (cleanWithP2SH_connectFlags a b c d) scriptSig scriptPubKey () hF

/-- The opcode of a lock time, without `DISCOURAGE_UPGRADABLE_NOPS`; and `OP_1` in a block. -/
theorem verifyScript_flags_nop :
    (verifyScript nullCrypto 0 ⟨fun _ _ _ => false, fun _ => true, fun _ => false⟩ [OP_1]
      [0xb1]).outcome = .ok () ∧
    (verifyScript nullCrypto (connectFlags true true true true) .base [OP_1] []).outcome
      = .ok () := by
  constructor
  · apply (verifyScript_flags nullCrypto ⟨fun _ _ _ => false, fun _ => true, fun _ => false⟩
      [OP_1] [0xb1]).1
      (SCRIPT_VERIFY_DISCOURAGE_UPGRADABLE_NOPS ||| SCRIPT_VERIFY_CHECKLOCKTIMEVERIFY) 0
    · exact ⟨rfl, (fun h => by cases h), (fun h => by cases h)⟩
    · exact fun h => by cases h
    · exact fun h => by cases h
    · rfl
  · exact (verifyScript_flags nullCrypto .base [OP_1] []).2 true true true true rfl

/-- With `CHECKLOCKTIMEVERIFY` its opcode checks a lock time, without it the opcode is a `NOP`
that may be discouraged. -/
theorem verifyScript_flags_discourage : ¬ ∀ (crypto : ScriptCrypto)
    (checker : BaseSignatureChecker) (F G : ℕ) (scriptSig scriptPubKey : CScript),
    Contains F G → CleanWithP2SH F → CleanWithP2SH G →
      (verifyScript crypto F checker scriptSig scriptPubKey).outcome = .ok () →
        (verifyScript crypto G checker scriptSig scriptPubKey).outcome = .ok () := by
  intro h
  have hclean : ∀ flags, has flags SCRIPT_VERIFY_CLEANSTACK = false → CleanWithP2SH flags := by
    intro flags hf hc
    rw [hf] at hc
    cases hc
  have hG := h nullCrypto ⟨fun _ _ _ => false, fun _ => true, fun _ => false⟩
    (SCRIPT_VERIFY_DISCOURAGE_UPGRADABLE_NOPS ||| SCRIPT_VERIFY_CHECKLOCKTIMEVERIFY)
    SCRIPT_VERIFY_DISCOURAGE_UPGRADABLE_NOPS [OP_1] [0xb1] rfl (hclean _ rfl) (hclean _ rfl) rfl
  have hbad : (verifyScript nullCrypto SCRIPT_VERIFY_DISCOURAGE_UPGRADABLE_NOPS
      ⟨fun _ _ _ => false, fun _ => true, fun _ => false⟩ [OP_1] [0xb1]).outcome =
      .error (.error SCRIPT_ERR_DISCOURAGE_UPGRADABLE_NOPS) := rfl
  rw [hbad] at hG
  cases hG

end Interpreter

end Stonecoin
