/-
Time locks of scripts and the rules of inclusion.

A script can only compare its operand with fields of its own transaction
(`TransactionSignatureChecker::CheckLockTime` and `CheckSequence`); these fields are compared
with a height and a median time when the transaction is put into a block.  Together they
lock the coin until the height or the time that the script names.

`Executes` says that an opcode was executed, and passed, somewhere in the evaluation of a
script.

  * `script_locks_enforced`: what this says of the block.
-/
import Stonecoin.Interpreter
import Stonecoin.SequenceLocks

namespace Stonecoin

open ParentTree

namespace Interpreter

/-! ### `TransactionSignatureChecker` -/

def checkLockTime (tx : CTransaction) (nIn : Fin tx.vin.length) (nLockTime : ℤ) : Bool :=
  -- the operand must be of the kind of the transaction's lock time
  if ¬ ((tx.nLockTime : ℤ) < LOCKTIME_THRESHOLD ∧ nLockTime < LOCKTIME_THRESHOLD ∨
      LOCKTIME_THRESHOLD ≤ (tx.nLockTime : ℤ) ∧ LOCKTIME_THRESHOLD ≤ nLockTime) then false
  else if (tx.nLockTime : ℤ) < nLockTime then false
  -- a final input would make the lock time ineffective
  else if SEQUENCE_FINAL = tx.vin[nIn].nSequence then false
  else true

/-- The bits of a sequence number that have a meaning. -/
def nLockTimeMask : ℕ := SEQUENCE_LOCKTIME_TYPE_FLAG ||| SEQUENCE_LOCKTIME_MASK

/-- `CheckSequence`; the operand is not negative where it is called. -/
def checkSequence (tx : CTransaction) (nIn : Fin tx.vin.length) (nSequence : ℤ) : Bool :=
  let txToSequence := tx.vin[nIn].nSequence
  if toUInt32 tx.nVersion < 2 then false
  else if txToSequence &&& SEQUENCE_LOCKTIME_DISABLE_FLAG ≠ 0 then false
  else
    let txToSequenceMasked := txToSequence &&& nLockTimeMask
    let nSequenceMasked := nSequence.toNat &&& nLockTimeMask
    if ¬ (txToSequenceMasked < SEQUENCE_LOCKTIME_TYPE_FLAG ∧
          nSequenceMasked < SEQUENCE_LOCKTIME_TYPE_FLAG ∨
        SEQUENCE_LOCKTIME_TYPE_FLAG ≤ txToSequenceMasked ∧
          SEQUENCE_LOCKTIME_TYPE_FLAG ≤ nSequenceMasked) then false
    else if txToSequenceMasked < nSequenceMasked then false
    else true

def transactionSignatureChecker (tx : CTransaction) (nIn : Fin tx.vin.length)
    (checkSig : Valtype → Valtype → CScript → Bool) : BaseSignatureChecker where
  checkSig := checkSig
  checkLockTime := checkLockTime tx nIn
  checkSequence := checkSequence tx nIn

/-! ### Opcodes in a run -/

section

variable (crypto : ScriptCrypto) (flags : ℕ) (checker : BaseSignatureChecker)

inductive RunsTo : CScript → EvalState → CScript → EvalState → Prop
  | refl (pc : CScript) (σ : EvalState) : RunsTo pc σ pc σ
  | step {pc pc' pc'' : CScript} {σ σ' σ'' : EvalState} {opcode : UInt8} {vch : Valtype} :
      getOp pc = some (opcode, vch, pc') →
      evalStep crypto flags checker opcode vch pc' σ = .ok σ' →
      RunsTo pc' σ' pc'' σ'' → RunsTo pc σ pc'' σ''

/-- In the evaluation of the script an opcode is executed at `σ`, outside of dead branches, and
passes. -/
def Executes (stack : List Valtype) (script : CScript) (opcode : UInt8) (σ : EvalState) : Prop :=
  ∃ pc vch pc' σ', RunsTo crypto flags checker script (.start stack script) pc σ ∧
    getOp pc = some (opcode, vch, pc') ∧ σ.vfExec.all id = true ∧
    evalStep crypto flags checker opcode vch pc' σ = .ok σ'

end

def OP_CHECKLOCKTIMEVERIFY : UInt8 := 0xb1
def OP_CHECKSEQUENCEVERIFY : UInt8 := 0xb2

variable {crypto : ScriptCrypto} {flags : ℕ} {checker : BaseSignatureChecker}
variable {stack : List Valtype} {script : CScript} {σ : EvalState}

theorem Executes.execInstr {opcode : UInt8}
    (h : Executes crypto flags checker stack script opcode σ) (hop : OP_PUSHDATA4 < opcode) :
    ∃ n pc σ', Interpreter.execInstr crypto flags checker (decodeOp opcode) true pc
      { σ with nOpCount := n } = .ok σ' := by
  obtain ⟨pc, vch, pc', σ', -, -, hexec, hstep⟩ := h
  have hspec := countOpcode_spec opcode vch σ
  unfold evalStep at hstep
  cases hcount : countOpcode opcode vch σ with
  | error f =>
    rw [hcount] at hstep
    cases hstep
  | ok σ₁ =>
    rw [hcount] at hspec hstep
    obtain ⟨n, rfl⟩ := hspec
    change evalOpcode crypto flags checker opcode vch pc' { σ with nOpCount := n } >>= _ = _
      at hstep
    cases hop' : evalOpcode crypto flags checker opcode vch pc' { σ with nOpCount := n } with
    | error f =>
      rw [hop'] at hstep
      cases hstep
    | ok σ₂ =>
      have hpush : ¬ opcode ≤ OP_PUSHDATA4 := UInt8.not_le.mpr hop
      unfold evalOpcode at hop'
      simp only [hexec, hpush, decide_false, Bool.and_false, Bool.false_eq_true, if_false,
        Bool.true_or, if_true] at hop'
      exact ⟨n, pc', σ₂, hop'⟩

theorem executes_lockTime (hflag : has flags SCRIPT_VERIFY_CHECKLOCKTIMEVERIFY = true)
    (h : Executes crypto flags checker stack script OP_CHECKLOCKTIMEVERIFY σ) {v : ℤ}
    (hv : numTop flags σ.stack 1 5 = .ok v) : 0 ≤ v ∧ checker.checkLockTime v = true := by
  obtain ⟨n, pc, σ', h⟩ := h.execInstr (by decide)
  change (EvalState.onStack _ (opCheckLockTimeVerify flags checker)) = _ at h
  cases hop : opCheckLockTimeVerify flags checker σ.stack with
  | error e =>
    unfold EvalState.onStack at h
    rw [hop] at h
    cases h
  | ok s =>
    unfold opCheckLockTimeVerify needs at hop
    rw [hflag, hv] at hop
    change (if _ then _ else if v < 0 then _ else if _ then _ else _) = _ at hop
    split_ifs at hop with h1 h2 h3
    exact ⟨by omega, by simpa using h3⟩

theorem executes_sequence (hflag : has flags SCRIPT_VERIFY_CHECKSEQUENCEVERIFY = true)
    (h : Executes crypto flags checker stack script OP_CHECKSEQUENCEVERIFY σ) {w : ℤ}
    (hw : numTop flags σ.stack 1 5 = .ok w)
    (hdis : w.toNat &&& SEQUENCE_LOCKTIME_DISABLE_FLAG = 0) :
    0 ≤ w ∧ checker.checkSequence w = true := by
  obtain ⟨n, pc, σ', h⟩ := h.execInstr (by decide)
  change (EvalState.onStack _ (opCheckSequenceVerify flags checker)) = _ at h
  cases hop : opCheckSequenceVerify flags checker σ.stack with
  | error e =>
    unfold EvalState.onStack at h
    rw [hop] at h
    cases h
  | ok s =>
    unfold opCheckSequenceVerify needs at hop
    rw [hflag, hw] at hop
    change (if _ then _ else if w < 0 then _ else
      if w.toNat &&& SEQUENCE_LOCKTIME_DISABLE_FLAG ≠ 0 then _ else if _ then _ else _) = _ at hop
    split_ifs at hop with h1 h2 h3 h4
    · exact absurd hdis h3
    · exact ⟨by omega, by simpa using h4⟩

/-! ### The bits of a sequence number -/

theorem type_and (x : ℕ) : x &&& SEQUENCE_LOCKTIME_TYPE_FLAG = 0 ∨
    x &&& SEQUENCE_LOCKTIME_TYPE_FLAG = SEQUENCE_LOCKTIME_TYPE_FLAG := by
  have hbit : ∀ i, (x &&& 2 ^ 22).testBit i = (x.testBit 22 && (2 ^ 22).testBit i) := by
    intro i
    rw [Nat.testBit_and, Nat.testBit_two_pow]
    by_cases hi : 22 = i
    · rw [hi]
    · simp [hi]
  cases hb : x.testBit 22 with
  | false =>
    refine Or.inl (Nat.eq_of_testBit_eq fun i => ?_)
    refine (hbit i).trans ?_
    rw [hb, Bool.false_and, Nat.zero_testBit]
  | true =>
    refine Or.inr (Nat.eq_of_testBit_eq fun i => ?_)
    refine (hbit i).trans ?_
    rw [hb, Bool.true_and]
    rfl

theorem mask_and_lt (x : ℕ) : x &&& SEQUENCE_LOCKTIME_MASK < SEQUENCE_LOCKTIME_TYPE_FLAG :=
  lt_of_le_of_lt Nat.and_le_right (by decide)

theorem and_nLockTimeMask (x : ℕ) : x &&& nLockTimeMask =
    (x &&& SEQUENCE_LOCKTIME_TYPE_FLAG) + (x &&& SEQUENCE_LOCKTIME_MASK) := by
  have hlt : x &&& SEQUENCE_LOCKTIME_MASK < 2 ^ 22 := mask_and_lt x
  unfold nLockTimeMask
  rw [Nat.and_or_distrib_left]
  rcases type_and x with h | h
  · rw [h, Nat.zero_or, Nat.zero_add]
  · rw [h]
    exact (Nat.two_pow_add_eq_or_of_lt hlt 1).symm

theorem checkSequence_bits {tx : CTransaction} {nIn : Fin tx.vin.length} {w : ℤ}
    (h : checkSequence tx nIn w = true) :
    2 ≤ toUInt32 tx.nVersion ∧
    tx.vin[nIn].nSequence &&& SEQUENCE_LOCKTIME_DISABLE_FLAG = 0 ∧
    tx.vin[nIn].nSequence &&& SEQUENCE_LOCKTIME_TYPE_FLAG =
      w.toNat &&& SEQUENCE_LOCKTIME_TYPE_FLAG ∧
    w.toNat &&& SEQUENCE_LOCKTIME_MASK ≤ tx.vin[nIn].nSequence &&& SEQUENCE_LOCKTIME_MASK := by
  unfold checkSequence at h
  dsimp only at h
  split_ifs at h with hver hdis htype hle
  rw [and_nLockTimeMask, and_nLockTimeMask] at htype hle
  have hm := mask_and_lt tx.vin[nIn].nSequence
  have hm' := mask_and_lt w.toNat
  have ht := type_and tx.vin[nIn].nSequence
  have ht' := type_and w.toNat
  generalize SEQUENCE_LOCKTIME_TYPE_FLAG = T at *
  refine ⟨by omega, by simpa using hdis, ?_, ?_⟩
  · omega
  · omega

/-! ### In a block -/

theorem locked_of_checkLockTime {tx : CTransaction} {nIn : Fin tx.vin.length} {v h t : ℤ}
    (hcheck : checkLockTime tx nIn v = true) (hh : 0 < h)
    (hfinal : isFinalTx tx h t = true) : if v < LOCKTIME_THRESHOLD then v < h else v < t := by
  have hthr : (0 : ℤ) < LOCKTIME_THRESHOLD := by decide
  unfold checkLockTime at hcheck
  split_ifs at hcheck with hkind hle hseq
  unfold isFinalTx at hfinal
  by_cases hzero : tx.nLockTime = 0
  · -- no lock time: the operand is zero
    rw [if_pos (by omega)]
    omega
  have hlt : (tx.nLockTime : ℤ) <
      if (tx.nLockTime : ℤ) < LOCKTIME_THRESHOLD then h else t := by
    by_contra hlt
    -- the input itself is not final
    rw [if_neg hzero, if_neg hlt] at hfinal
    have hall := List.all_eq_true.mp hfinal tx.vin[nIn] (List.getElem_mem _)
    exact hseq (of_decide_eq_true hall).symm
  rcases hkind with hk | hk
  · rw [if_pos hk.1] at hlt
    rw [if_pos hk.2]
    omega
  · rw [if_neg (by omega)] at hlt
    rw [if_neg (by omega)]
    omega

/-- What is known of a transaction in a block: the block has a parent, every coin is on its
chain, and both rules of inclusion hold. -/
structure Included (c : BlockStore) (tx : CTransaction) (prevHeights : List ℤ) (b p : BlockPtr) :
    Prop where
  parent : c.tree.pprev b = some p
  length_eq : prevHeights.length = tx.vin.length
  onChain : ∀ x ∈ prevHeights, x ≤ c.tree.nHeight b

theorem Included.hasAncestors {c : BlockStore} {tx : CTransaction} {prevHeights : List ℤ}
    {b p : BlockPtr} (h : Included c tx prevHeights b p) :
    BlockStore.HasAncestors (c.tree.lockBlock b) prevHeights := by
  intro x hx
  have hle := h.onChain x hx
  obtain ⟨a, ha, hh⟩ := exists_mem_line c.tree.graded (b := b)
    (n := (max (x - 1) 0).toNat) (by omega)
  refine ⟨a, ?_⟩
  show (if max (x - 1) 0 < 0 then none else c.tree.getAncestor b _) = some a
  rw [if_neg (by omega)]
  exact BlockTree.getAncestor_eq_some.mpr ⟨ha, hh⟩

theorem locked_of_checkSequence {c : BlockStore} {tx : CTransaction} {prevHeights : List ℤ}
    {b p : BlockPtr} (h : Included c tx prevHeights b p) {nIn : Fin tx.vin.length} {w x : ℤ}
    (hcheck : checkSequence tx nIn w = true)
    (hlocks : c.sequenceLocks tx LOCKTIME_VERIFY_SEQUENCE prevHeights (c.tree.lockBlock b)
      = some true) (hx : prevHeights[(nIn : ℕ)]? = some x) :
    if w.toNat &&& SEQUENCE_LOCKTIME_TYPE_FLAG = 0 then
      x + (w.toNat &&& SEQUENCE_LOCKTIME_MASK : ℕ) ≤ c.tree.nHeight b
    else ∃ a, (c.tree.lockBlock b).getAncestor (max (x - 1) 0) = some a ∧
      (c.getMedianTimePast a : ℤ)
        + (w.toNat &&& SEQUENCE_LOCKTIME_MASK : ℕ) * 2 ^ SEQUENCE_LOCKTIME_GRANULARITY
          ≤ c.getMedianTimePast p := by
  obtain ⟨hver, hdis, htype, hmask⟩ := checkSequence_bits hcheck
  have henf : BlockStore.enforceBIP68 tx LOCKTIME_VERIFY_SEQUENCE = true := by
    unfold BlockStore.enforceBIP68
    rw [Bool.and_eq_true]
    exact ⟨decide_eq_true hver, rfl⟩
  have hmem : (tx.vin[nIn], x) ∈ tx.vin.zip prevHeights := by
    apply List.mem_of_getElem? (i := nIn)
    rw [List.getElem?_zip_eq_some]
    exact ⟨List.getElem?_eq_getElem nIn.isLt, hx⟩
  have hfree := (BlockStore.sequenceLocks_iff h.parent h.length_eq h.hasAncestors).mp hlocks
    henf _ hmem hdis
  dsimp only at hfree
  rw [htype] at hfree
  split
  next h0 =>
    rw [if_neg (not_not.mpr h0)] at hfree
    have hb : ((c.tree.lockBlock b).nHeight : ℤ) = c.tree.nHeight b := rfl
    omega
  next h0 =>
    rw [if_pos h0] at hfree
    obtain ⟨a, ha⟩ := h.hasAncestors x (List.mem_of_getElem? hx)
    refine ⟨a, ha, ?_⟩
    have hlock := hfree a ha
    rw [Nat.shiftLeft_eq] at hlock
    have hmul : (w.toNat &&& SEQUENCE_LOCKTIME_MASK) * 2 ^ SEQUENCE_LOCKTIME_GRANULARITY ≤
        (tx.vin[nIn].nSequence &&& SEQUENCE_LOCKTIME_MASK) * 2 ^ SEQUENCE_LOCKTIME_GRANULARITY :=
      Nat.mul_le_mul_right _ hmask
    have hpow : (2 : ℕ) ^ SEQUENCE_LOCKTIME_GRANULARITY = 512 := rfl
    have hpow' : (2 : ℤ) ^ SEQUENCE_LOCKTIME_GRANULARITY = 512 := rfl
    rw [hpow] at hlock hmul
    rw [hpow']
    omega

/-- **Time locks of scripts are enforced.**  A block that includes the transaction is past the
lock time that `OP_CHECKLOCKTIMEVERIFY` was given, by its height or by the median time past of
its parent; and the coin is as old as `OP_CHECKSEQUENCEVERIFY` was told. -/
theorem script_locks_enforced (c : BlockStore) {tx : CTransaction} {prevHeights : List ℤ}
    {b p : BlockPtr} (h : Included c tx prevHeights b p) (nIn : Fin tx.vin.length)
    (crypto : ScriptCrypto) (flags : ℕ) (checkSig : Valtype → Valtype → CScript → Bool)
    (stack : List Valtype) (script : CScript) (σ : EvalState) :
    (has flags SCRIPT_VERIFY_CHECKLOCKTIMEVERIFY = true →
      isFinalTx tx (c.tree.nHeight b) (c.getMedianTimePast p) = true →
      Executes crypto flags (transactionSignatureChecker tx nIn checkSig) stack script
        OP_CHECKLOCKTIMEVERIFY σ →
      ∀ v, numTop flags σ.stack 1 5 = .ok v →
        if v < LOCKTIME_THRESHOLD then v < c.tree.nHeight b else v < c.getMedianTimePast p) ∧
    (has flags SCRIPT_VERIFY_CHECKSEQUENCEVERIFY = true →
      c.sequenceLocks tx LOCKTIME_VERIFY_SEQUENCE prevHeights (c.tree.lockBlock b) = some true →
      Executes crypto flags (transactionSignatureChecker tx nIn checkSig) stack script
        OP_CHECKSEQUENCEVERIFY σ →
      ∀ w x, numTop flags σ.stack 1 5 = .ok w →
        w.toNat &&& SEQUENCE_LOCKTIME_DISABLE_FLAG = 0 → prevHeights[(nIn : ℕ)]? = some x →
        if w.toNat &&& SEQUENCE_LOCKTIME_TYPE_FLAG = 0 then
          x + (w.toNat &&& SEQUENCE_LOCKTIME_MASK : ℕ) ≤ c.tree.nHeight b
        else ∃ a, (c.tree.lockBlock b).getAncestor (max (x - 1) 0) = some a ∧
          (c.getMedianTimePast a : ℤ)
            + (w.toNat &&& SEQUENCE_LOCKTIME_MASK : ℕ) * 2 ^ SEQUENCE_LOCKTIME_GRANULARITY
              ≤ c.getMedianTimePast p) := by
  constructor
  · intro hflag hfinal hexec v hv
    have hpos : 0 < c.tree.nHeight b := by
      rw [c.tree.graded.child b p h.parent]
      exact Nat.succ_pos _
    have hcheck := (executes_lockTime hflag hexec hv).2
    simp only [transactionSignatureChecker] at hcheck
    exact locked_of_checkLockTime hcheck (by omega) hfinal
  · intro hflag hlocks hexec w x hw hdis hx
    exact locked_of_checkSequence h (executes_sequence hflag hexec hw hdis).2 hlocks hx

/-- Locked until height 3, and for two blocks after its coin. -/
def lockedTx : CTransaction where
  hash := 1
  nVersion := 2
  vin := [{ prevout := ⟨2, 0⟩, scriptSig := [], nSequence := 2 }]
  vout := []
  nLockTime := 3

theorem script_locks_enforced_sixBlocks : (3 : ℤ) < 5 ∧ (1 : ℤ) + 2 ≤ 5 := by
  have hin : Included sixBlocks lockedTx [1] ⟨5⟩ ⟨4⟩ := ⟨rfl, rfl, by decide⟩
  have hfinal : isFinalTx lockedTx (sixBlocks.tree.nHeight ⟨5⟩)
      (sixBlocks.getMedianTimePast ⟨4⟩) = true := by decide +kernel
  have hlocks : sixBlocks.sequenceLocks lockedTx LOCKTIME_VERIFY_SEQUENCE [1]
      (sixBlocks.tree.lockBlock ⟨5⟩) = some true := by decide +kernel
  constructor
  · exact (script_locks_enforced sixBlocks hin ⟨0, by decide⟩ nullCrypto
      SCRIPT_VERIFY_CHECKLOCKTIMEVERIFY (fun _ _ _ => false) [] [0x53, 0xb1]
      ⟨[[3]], [], [], 0, [0x53, 0xb1], 0⟩).1 rfl hfinal
      ⟨[0xb1], [], [], _, .step rfl rfl (.refl _ _), rfl, rfl, rfl⟩ 3 rfl
  · exact (script_locks_enforced sixBlocks hin ⟨0, by decide⟩ nullCrypto
      SCRIPT_VERIFY_CHECKSEQUENCEVERIFY (fun _ _ _ => false) [] [0x52, 0xb2]
      ⟨[[2]], [], [], 0, [0x52, 0xb2], 0⟩).2 rfl hlocks
      ⟨[0xb2], [], [], _, .step rfl rfl (.refl _ _), rfl, rfl, rfl⟩ 2 1 rfl rfl rfl

end Interpreter

end Stonecoin
