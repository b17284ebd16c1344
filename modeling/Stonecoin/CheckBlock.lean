/-
`CheckBlock` of `main.cpp`: the context-free block check, with the founder search
inside its transaction loop.

What the node consults besides the block (the proof-of-work and merkle functions, the
clock, the sporks, the transaction locks, the active tip, the founder addresses) is the
environment `CheckBlockEnv`.

The transaction loop leaves with `break` at the first transaction that pays a founder,
so the transactions behind it are never checked.  Main results:

  * `checkBlock_checks_all_iff`: the block check covers every transaction exactly when
    the block is not a `FounderCutOff`.
-/
import Stonecoin.FounderPayment

namespace Stonecoin

/-! ### Blocks -/

structure CBlockHeader where
  nVersion : ℤ
  hashPrevBlock : UInt256
  hashMerkleRoot : UInt256
  nTime : ℕ
  nBits : ℕ
  nNonce : ℕ
deriving DecidableEq, Repr

/-- A block, with the memory-only fields that `CheckBlock` reads or writes. -/
structure CBlock extends CBlockHeader where
  vtx : List CTransaction
  fChecked : Bool
deriving DecidableEq, Repr

/-- `GetSerializeSize(block)`: eighty bytes of header, then the transactions. -/
def CBlock.getSerializeSize (block : CBlock) : ℕ :=
  80 + getSizeOfCompactSize block.vtx.length
    + (block.vtx.map CTransaction.getSerializeSize).sum

/-! ### What the node consults -/

def SPORK_3_INSTANTSEND_BLOCK_FILTERING : ℤ := 10002
def SPORK_15_FOUNDER_PAYMENT_ENFORCEMENT : ℤ := 10014

/-- The active tip, as far as `CheckBlock` reads it. -/
structure ChainTip where
  nHeight : ℤ
  nBits : ℕ
deriving DecidableEq, Repr

structure CheckBlockEnv where
  /-- `CheckProofOfWork(block.GetHash(), block.nBits)`. -/
  checkProofOfWork : CBlockHeader → Bool
  getAdjustedTime : ℤ
  /-- `BlockMerkleRoot` over the transaction ids, with its `mutated` flag. -/
  computeMerkleRoot : List UInt256 → UInt256 × Bool
  isSporkActive : ℤ → Bool
  /-- `instantsend.GetLockedOutPointTxHash`. -/
  getLockedOutPointTxHash : COutPoint → Option UInt256
  /-- `chainActive.Tip()`. -/
  tip : Option ChainTip
  nSubsidyHalvingInterval : ℕ
  founderPayment : FounderPayment

variable (env : CheckBlockEnv)

/-! ### The check -/

def checkBlockHeader (block : CBlockHeader) (fCheckPOW : Bool) : Except Reject Unit :=
  if fCheckPOW && !env.checkProofOfWork block then dos 50 "high-hash" false
  else if env.getAdjustedTime + 2 * 60 * 60 < block.nTime then dos 0 "time-too-new" false
  else .ok ()

def checkMerkleRoot (block : CBlock) (fCheckMerkleRoot : Bool) : Except Reject Unit :=
  if fCheckMerkleRoot then
    let (hashMerkleRoot2, mutated) := env.computeMerkleRoot (block.vtx.map CTransaction.hash)
    if block.hashMerkleRoot ≠ hashMerkleRoot2 then dos 100 "bad-txnmrklroot" true
    else if mutated then dos 100 "bad-txns-duplicate" true
    else .ok ()
  else .ok ()

/-- The size limits, then the place of the coinbase. -/
def checkBlockShape (block : CBlock) : Except Reject Unit :=
  if block.vtx.isEmpty ∨ MAX_BLOCK_SIZE < block.vtx.length
      ∨ MAX_BLOCK_SIZE < block.getSerializeSize then dos 100 "bad-blk-length" false
  else
    match block.vtx with
    | [] => dos 100 "bad-cb-missing" false
    | tx :: txs =>
      if !tx.isCoinBase then dos 100 "bad-cb-missing" false
      else if txs.any CTransaction.isCoinBase then dos 100 "bad-cb-multiple" false
      else .ok ()

def conflictsWithLock (tx : CTransaction) (txin : CTxIn) : Bool :=
  match env.getLockedOutPointTxHash txin.prevout with
  | none => false
  | some hashLocked => hashLocked ≠ tx.hash

/-- The InstantSend filter: no input of a non-coinbase transaction conflicts. -/
def checkTxLocks (block : CBlock) : Except Reject Unit :=
  if env.isSporkActive SPORK_3_INSTANTSEND_BLOCK_FILTERING then
    if block.vtx.any fun tx => !tx.isCoinBase && tx.vin.any (conflictsWithLock env tx) then
      dos 0 "conflict-tx-lock" false
    else .ok ()
  else .ok ()

def getLegacySigOpCount (tx : CTransaction) : ℕ :=
  (tx.vin.map fun i => getSigOpCount i.scriptSig false).sum
    + (tx.vout.map fun o => getSigOpCount o.scriptPubKey false).sum

/-- The condition under which the loop searches for the founder payment. -/
def founderSearch (tip : ChainTip) : Bool :=
  env.isSporkActive SPORK_15_FOUNDER_PAYMENT_ENFORCEMENT ∧ FOUNDER_START_BLOCK < tip.nHeight + 1

/-- A transaction ends the search: it pays a founder at the next height. -/
def paysFounder (tip : ChainTip) (tx : CTransaction) : Bool :=
  env.founderPayment.isBlockPayeeValid tx (tip.nHeight + 1)
    (getBlockSubsidy env.nSubsidyHalvingInterval tip.nBits tip.nHeight)

/-- The transaction loop of `CheckBlock`.  The result is `founderTransaction`; the
`break` is the branch that does not recurse. -/
def checkTxLoop (tip : ChainTip) : Bool → List CTransaction → Except Reject Bool
  | founderTransaction, [] => .ok founderTransaction
  | founderTransaction, tx :: txs =>
    match checkTransaction tx with
    | .error e => .error e
    | .ok () =>
      if founderSearch env tip then
        if paysFounder env tip tx then .ok true
        else checkTxLoop tip founderTransaction txs
      else checkTxLoop tip true txs

/-- The part of `CheckBlock` behind the test for a missing tip. -/
def checkBlockTxs (block : CBlock) (fCheckPOW fCheckMerkleRoot : Bool) (tip : ChainTip) :
    Except Reject CBlock :=
  match checkTxLoop env tip false block.vtx with
  | .error e => .error e
  | .ok founderTransaction =>
    if !founderTransaction then dos 0 "founder-not-found" false
    else if MAX_BLOCK_SIGOPS < (block.vtx.map getLegacySigOpCount).sum then
      dos 100 "bad-blk-sigops" false
    else .ok { block with fChecked := block.fChecked || (fCheckPOW && fCheckMerkleRoot) }

/-- The checks before the transaction loop, in their order. -/
def checkBlockPrelude (block : CBlock) (fCheckPOW fCheckMerkleRoot : Bool) :
    Except Reject Unit :=
  match checkBlockHeader env block.toCBlockHeader fCheckPOW with
  | .error e => .error e
  | .ok () =>
    match checkMerkleRoot env block fCheckMerkleRoot with
    | .error e => .error e
    | .ok () =>
      match checkBlockShape block with
      | .error e => .error e
      | .ok () => checkTxLocks env block

/-- `CheckBlock`: the block with its flag `fChecked` as the call leaves it, or the
rejection. -/
def checkBlock (block : CBlock) (fCheckPOW fCheckMerkleRoot : Bool) : Except Reject CBlock :=
  if block.fChecked then .ok block
  else
    match checkBlockPrelude env block fCheckPOW fCheckMerkleRoot with
    | .error e => .error e
    | .ok () =>
      match env.tip with
      | none => .ok block
      | some tip => checkBlockTxs env block fCheckPOW fCheckMerkleRoot tip

/-! ### What the loop accepts -/

theorem checkTxLoop_off {tip : ChainTip} (hs : founderSearch env tip = false) :
    ∀ (txs : List CTransaction) (f r : Bool), checkTxLoop env tip f txs = .ok r ↔
      (∀ tx ∈ txs, checkTransaction tx = .ok ()) ∧ r = (f || !txs.isEmpty) := by
  intro txs
  induction txs with
  | nil => intro f r; simp [checkTxLoop, eq_comm]
  | cons tx txs ih =>
    intro f r
    cases e : checkTransaction tx with
    | error err => simp [checkTxLoop, e]
    | ok u => simp [checkTxLoop, e, hs, ih]

theorem checkTxLoop_on {tip : ChainTip} (hs : founderSearch env tip = true) :
    ∀ txs : List CTransaction, checkTxLoop env tip false txs = .ok true ↔
      ∃ pre pay suf, txs = pre ++ pay :: suf ∧ (∀ tx ∈ pre, paysFounder env tip tx = false) ∧
        paysFounder env tip pay = true ∧ ∀ tx ∈ pre ++ [pay], checkTransaction tx = .ok () := by
  intro txs
  induction txs with
  | nil => simp [checkTxLoop]
  | cons tx txs ih =>
    constructor
    · intro h
      cases e : checkTransaction tx with
      | error err => simp [checkTxLoop, e] at h
      | ok u =>
        by_cases hp : paysFounder env tip tx = true
        · exact ⟨[], tx, txs, rfl, by simp, hp, by simpa using e⟩
        · have h' : checkTxLoop env tip false txs = .ok true := by
            simpa [checkTxLoop, e, hs, hp] using h
          obtain ⟨pre, pay, suf, rfl, hpre, hpay, hok⟩ := ih.mp h'
          refine ⟨tx :: pre, pay, suf, rfl, ?_, hpay, ?_⟩
          · simpa using ⟨by simpa using hp, hpre⟩
          · simpa [e] using hok
    · rintro ⟨pre, pay, suf, hsplit, hpre, hpay, hok⟩
      cases pre with
      | nil =>
        obtain ⟨rfl, rfl⟩ := List.cons.inj hsplit
        simp [checkTxLoop, hok tx (by simp), hs, hpay]
      | cons q pre =>
        obtain ⟨rfl, rfl⟩ := List.cons.inj hsplit
        have hrest := ih.mpr ⟨pre, pay, suf, rfl, fun t ht => hpre t (by simp [ht]), hpay,
          fun t ht => hok t (by simp only [List.cons_append, List.mem_cons]; exact .inr ht)⟩
        simpa [checkTxLoop, hok tx (by simp), hs, hpre tx (by simp)] using hrest

/-! ### What the block check covers -/

theorem checkBlock_ok_iff {block : CBlock} {fCheckPOW fCheckMerkleRoot : Bool} {tip : ChainTip}
    (hf : block.fChecked = false) (ht : env.tip = some tip) :
    (∃ b, checkBlock env block fCheckPOW fCheckMerkleRoot = .ok b) ↔
      checkBlockPrelude env block fCheckPOW fCheckMerkleRoot = .ok () ∧
        checkTxLoop env tip false block.vtx = .ok true ∧
        (block.vtx.map getLegacySigOpCount).sum ≤ MAX_BLOCK_SIGOPS := by
  unfold checkBlock
  simp only [hf, ht, Bool.false_eq_true, if_false]
  cases checkBlockPrelude env block fCheckPOW fCheckMerkleRoot with
  | error e => simp
  | ok u =>
    simp only [true_and, checkBlockTxs]
    cases checkTxLoop env tip false block.vtx with
    | error e => simp
    | ok f =>
      cases f with
      | false => simp [dos]
      | true =>
        by_cases hs : MAX_BLOCK_SIGOPS < (block.vtx.map getLegacySigOpCount).sum
        · simp [hs, dos]
        · simp [hs, not_lt.mp hs]

/-- **The cut-off.**  The founder search is on, the block passes every other check, and
behind the first transaction that pays a founder there is one that fails
`CheckTransaction`. -/
def FounderCutOff (block : CBlock) (fCheckPOW fCheckMerkleRoot : Bool) (tip : ChainTip) : Prop :=
  founderSearch env tip = true ∧
  checkBlockPrelude env block fCheckPOW fCheckMerkleRoot = .ok () ∧
  (block.vtx.map getLegacySigOpCount).sum ≤ MAX_BLOCK_SIGOPS ∧
  ∃ pre pay suf, block.vtx = pre ++ pay :: suf ∧
    (∀ tx ∈ pre, paysFounder env tip tx = false) ∧ paysFounder env tip pay = true ∧
    (∀ tx ∈ pre ++ [pay], checkTransaction tx = .ok ()) ∧
    ∃ tx ∈ suf, checkTransaction tx ≠ .ok ()

/-- **`CheckBlock` checks every transaction exactly outside the cut-off.** -/
theorem checkBlock_checks_all_iff (block : CBlock) (fCheckPOW fCheckMerkleRoot : Bool)
    (tip : ChainTip) (hf : block.fChecked = false) (ht : env.tip = some tip) :
    ((∃ b, checkBlock env block fCheckPOW fCheckMerkleRoot = .ok b) →
        ∀ tx ∈ block.vtx, checkTransaction tx = .ok ()) ↔
      ¬ FounderCutOff env block fCheckPOW fCheckMerkleRoot tip := by
  rw [checkBlock_ok_iff env hf ht]
  constructor
  · rintro hall ⟨hs, hpre, hsig, pre, pay, suf, hsplit, hnot, hpay, hok, tx, htx, hbad⟩
    have hloop := (checkTxLoop_on env hs block.vtx).mpr ⟨pre, pay, suf, hsplit, hnot, hpay, hok⟩
    exact hbad (hall ⟨hpre, hloop, hsig⟩ tx (by simp [hsplit, htx]))
  · rintro hcut ⟨hpre, hloop, hsig⟩
    by_cases hs : founderSearch env tip = true
    · obtain ⟨pre, pay, suf, hsplit, hnot, hpay, hok⟩ := (checkTxLoop_on env hs _).mp hloop
      intro tx htx
      by_contra hbad
      have hsuf : tx ∈ suf := by
        rw [hsplit, List.append_cons, List.mem_append] at htx
        exact htx.resolve_left fun h => hbad (hok tx h)
      exact hcut ⟨hs, hpre, hsig, pre, pay, suf, hsplit, hnot, hpay, hok, tx, hsuf, hbad⟩
    · exact ((checkTxLoop_off env (by simpa using hs) _ _ _).mp hloop).1

/-! #### A block behind the cut-off -/

/-- A node at the first height of the founder enforcement, with the spork active. -/
def cutOffEnv : CheckBlockEnv where
  checkProofOfWork := fun _ => true
  getAdjustedTime := 1600000000
  computeMerkleRoot := fun ids => (ids.foldl (· + ·) 0, false)
  isSporkActive := fun n => n = SPORK_15_FOUNDER_PAYMENT_ENFORCEMENT
  getLockedOutPointTxHash := fun _ => none
  tip := some ⟨FOUNDER_START_BLOCK, 0x1e0ffff0⟩
  nSubsidyHalvingInterval := 262800
  founderPayment := .of (.keyID .null) .noDestination

/-- A coinbase that pays the founder, then a transaction that spends one output twice. -/
def cutOffBlock : CBlock where
  nVersion := 1
  hashPrevBlock := 0
  hashMerkleRoot := 3
  nTime := 1600000000
  nBits := 0x1e0ffff0
  nNonce := 0
  vtx :=
    [⟨1, 1, [⟨.null, [0, 0], 0⟩], [.of COIN (getScriptForDestination (.keyID .null))], 0⟩,
      ⟨2, 1, [⟨⟨7, 0⟩, [], 0⟩, ⟨⟨7, 0⟩, [], 0⟩], [.of COIN []], 0⟩]
  fChecked := false

/-- The block is accepted although its second transaction has a duplicate input. -/
theorem checkBlock_misses_duplicate :
    ¬ ((∃ b, checkBlock cutOffEnv cutOffBlock true true = .ok b) →
        ∀ tx ∈ cutOffBlock.vtx, checkTransaction tx = .ok ()) := by
  intro h
  have hacc : checkBlock cutOffEnv cutOffBlock true true
      = .ok { cutOffBlock with fChecked := true } := by decide +kernel
  have hbad := h ⟨_, hacc⟩
  exact absurd hbad (by decide +kernel)

theorem checkBlock_checks_all_iff_cutOff :
    ((∃ b, checkBlock cutOffEnv cutOffBlock true true = .ok b) →
        ∀ tx ∈ cutOffBlock.vtx, checkTransaction tx = .ok ()) ↔
      ¬ FounderCutOff cutOffEnv cutOffBlock true true ⟨FOUNDER_START_BLOCK, 0x1e0ffff0⟩ :=
  checkBlock_checks_all_iff cutOffEnv cutOffBlock true true _ rfl rfl

end Stonecoin
