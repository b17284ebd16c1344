/-
`CheckBlock` under two tips.

The function says of its checks that they are independent of context, but takes the height
and the reward of the founder payment from the active tip.  Under two tips it has the same
verdicts exactly when both search for the founder or neither does, and when the amount that
they look for is the same (`tipIndependent_iff`).

The probe that tells two tips apart is a block with one coinbase and one output.
-/
import Stonecoin.CheckBlock

namespace Stonecoin

def CheckBlockEnv.at (env : CheckBlockEnv) (tip : ChainTip) : CheckBlockEnv :=
  { env with tip := some tip }

def founderAmount (env : CheckBlockEnv) (tip : ChainTip) : ℤ :=
  env.founderPayment.getFounderPaymentAmount (tip.nHeight + 1)
    (getBlockSubsidy env.nSubsidyHalvingInterval tip.nBits tip.nHeight)

/-- **The verdict does not depend on the tip**, and a block that has been found good under
the first tip is good under the second one. -/
structure TipIndependent (env : CheckBlockEnv) (t₁ t₂ : ChainTip) : Prop where
  verdict : ∀ block fCheckPOW fCheckMerkleRoot, block.fChecked = false →
    checkBlock (env.at t₁) block fCheckPOW fCheckMerkleRoot =
      checkBlock (env.at t₂) block fCheckPOW fCheckMerkleRoot
  checked : ∀ block fCheckPOW fCheckMerkleRoot b,
    checkBlock (env.at t₁) block fCheckPOW fCheckMerkleRoot = .ok b → b.fChecked = true →
      ∀ fCheckPOW' fCheckMerkleRoot',
        checkBlock (env.at t₂) b fCheckPOW' fCheckMerkleRoot' = .ok b

variable {env : CheckBlockEnv} {t₁ t₂ : ChainTip}

/-! ### The same amount -/

theorem paysFounder_eq (tip : ChainTip) (tx : CTransaction) :
    paysFounder env tip tx = tx.vout.any fun out =>
      env.founderPayment.payeeMatchFounder out.scriptPubKey ∧
        founderAmount env tip ≤ out.nValue := rfl

theorem checkTxLoop_congr (hsearch : founderSearch env t₁ = founderSearch env t₂)
    (hamount : founderSearch env t₁ = true → founderAmount env t₁ = founderAmount env t₂) :
    ∀ (txs : List CTransaction) (founderTransaction : Bool),
      checkTxLoop env t₁ founderTransaction txs = checkTxLoop env t₂ founderTransaction txs
  | [], _ => rfl
  | tx :: txs, founderTransaction => by
    rw [checkTxLoop, checkTxLoop, ← hsearch]
    cases checkTransaction tx with
    | error e => rfl
    | ok u =>
      cases hon : founderSearch env t₁ with
      | false => exact checkTxLoop_congr hsearch hamount txs true
      | true =>
        have hpays : paysFounder env t₁ tx = paysFounder env t₂ tx := by
          rw [paysFounder_eq, paysFounder_eq, hamount hon]
        simp only [if_true, hpays, checkTxLoop_congr hsearch hamount txs founderTransaction]

theorem checkTxLoop_at (tip tip' : ChainTip) : ∀ (txs : List CTransaction) (f : Bool),
    checkTxLoop (env.at tip) tip' f txs = checkTxLoop env tip' f txs
  | [], _ => rfl
  | tx :: txs, f => by
    rw [checkTxLoop, checkTxLoop, checkTxLoop_at tip tip' txs f, checkTxLoop_at tip tip' txs true]
    rfl

theorem checkBlock_at (block : CBlock) (fCheckPOW fCheckMerkleRoot : Bool) (tip : ChainTip)
    (hf : block.fChecked = false) :
    checkBlock (env.at tip) block fCheckPOW fCheckMerkleRoot =
      (checkBlockPrelude env block fCheckPOW fCheckMerkleRoot).bind fun _ =>
        checkBlockTxs env block fCheckPOW fCheckMerkleRoot tip := by
  have hprelude : checkBlockPrelude (env.at tip) block fCheckPOW fCheckMerkleRoot =
      checkBlockPrelude env block fCheckPOW fCheckMerkleRoot := rfl
  rw [checkBlock, hf, hprelude, if_neg Bool.false_ne_true]
  cases checkBlockPrelude env block fCheckPOW fCheckMerkleRoot with
  | error e => rfl
  | ok u =>
    show checkBlockTxs (env.at tip) block fCheckPOW fCheckMerkleRoot tip = _
    rw [checkBlockTxs, checkTxLoop_at]
    rfl

/-! ### The probe -/

theorem sigOpsOf_le (fAccurate : Bool) (lastOpcode opcode : UInt8) :
    sigOpsOf fAccurate lastOpcode opcode ≤ 20 := by
  rw [sigOpsOf]
  split_ifs with hone hmulti haccurate
  · decide
  · have hle : lastOpcode.toNat ≤ OP_16.toNat := haccurate.2.2
    have hval : OP_16.toNat = 96 := rfl
    have hval' : OP_1.toNat = 81 := rfl
    omega
  · exact le_refl _
  · exact Nat.zero_le _

theorem getSigOpCountLoop_le (fAccurate : Bool) : ∀ (fuel : ℕ) (lastOpcode : UInt8)
    (pc : CScript) (n : ℕ), getSigOpCountLoop fAccurate fuel lastOpcode pc n ≤ n + 20 * fuel
  | 0, _, _, n => Nat.le_add_right n _
  | fuel + 1, lastOpcode, pc, n => by
    rw [getSigOpCountLoop]
    cases getOp pc with
    | none => exact Nat.le_add_right n _
    | some r =>
      have hrest := getSigOpCountLoop_le fAccurate fuel r.1 r.2.2
        (n + sigOpsOf fAccurate lastOpcode r.1)
      have hone := sigOpsOf_le fAccurate lastOpcode r.1
      exact hrest.trans (by omega)

theorem getSigOpCount_le (s : CScript) (fAccurate : Bool) :
    getSigOpCount s fAccurate ≤ 20 * s.length := by
  have hle := getSigOpCountLoop_le fAccurate s.length OP_INVALIDOPCODE s 0
  rwa [Nat.zero_add] at hle

/-- A coinbase with one output. -/
def probeTx (out : CTxOut) : CTransaction := ⟨0, 1, [⟨.null, [0, 0], 0⟩], [out], 0⟩

def probeBlock (out : CTxOut) : CBlock where
  nVersion := 1
  hashPrevBlock := 0
  hashMerkleRoot := 0
  nTime := 0
  nBits := 0
  nNonce := 0
  vtx := [probeTx out]
  fChecked := false

section Probe

variable {out : CTxOut}

theorem probeTx_size (hlength : out.scriptPubKey.length ≤ 26) :
    (probeTx out).getSerializeSize ≤ 200 := by
  have hout : scriptSerializeSize out.scriptPubKey = 1 + out.scriptPubKey.length := by
    rw [scriptSerializeSize, getSizeOfCompactSize, if_pos (by omega)]
  have hin : scriptSerializeSize [0, 0] = 3 := rfl
  have hone : getSizeOfCompactSize 1 = 1 := rfl
  simp only [CTransaction.getSerializeSize, probeTx, List.length_singleton, List.map_singleton,
    List.sum_singleton, hout, hin, hone]
  omega

theorem probeTx_sigOps (hlength : out.scriptPubKey.length ≤ 26) :
    getLegacySigOpCount (probeTx out) ≤ 600 := by
  have hin : getSigOpCount [0, 0] false = 0 := by decide
  have hout := getSigOpCount_le out.scriptPubKey false
  simp only [getLegacySigOpCount, probeTx, List.map_singleton, List.sum_singleton, hin]
  omega

theorem checkTransaction_probe (hlength : out.scriptPubKey.length ≤ 26)
    (hrange : 0 ≤ out.nValue ∧ out.nValue ≤ MAX_MONEY) :
    checkTransaction (probeTx out) = .ok () := by
  have hcoinbase : (probeTx out).isCoinBase = true := rfl
  rw [checkTransaction_ok_iff]
  refine ⟨by simp [probeTx], by simp [probeTx], (probeTx_size hlength).trans (by decide), ?_, ?_,
    by simp [probeTx], fun _ => by simp [probeTx], fun h => ?_⟩
  · simpa [probeTx] using hrange.1
  · simpa [probeTx] using hrange.2
  · exact absurd (hcoinbase.symm.trans h) (by simp)

theorem prelude_probe (hlength : out.scriptPubKey.length ≤ 26)
    (hclock : 0 ≤ env.getAdjustedTime + 2 * 60 * 60) :
    checkBlockPrelude env (probeBlock out) false false = .ok () := by
  have hheader : checkBlockHeader env (probeBlock out).toCBlockHeader false = .ok () := by
    rw [checkBlockHeader, if_neg (by simp), if_neg]
    exact not_lt.mpr hclock
  have hsize : (probeBlock out).getSerializeSize ≤ MAX_BLOCK_SIZE := by
    have htx := probeTx_size hlength
    have hone : getSizeOfCompactSize 1 = 1 := rfl
    have hmax : MAX_BLOCK_SIZE = 1000000 := rfl
    simp only [CBlock.getSerializeSize, probeBlock, List.length_singleton, List.map_singleton,
      List.sum_singleton, hone, hmax]
    omega
  have hshape : checkBlockShape (probeBlock out) = .ok () := by
    rw [checkBlockShape, if_neg]
    · rfl
    · rintro (hempty | hmany | hlarge)
      · exact absurd hempty Bool.false_ne_true
      · exact absurd hmany (by simp [probeBlock, MAX_BLOCK_SIZE])
      · exact absurd hsize (Nat.not_le.mpr hlarge)
  have hlocks : checkTxLocks env (probeBlock out) = .ok () := by
    rw [checkTxLocks]
    split_ifs with hspork hany
    · simp [probeBlock, probeTx, CTransaction.isCoinBase, COutPoint.null, COutPoint.isNull] at hany
    · rfl
    · rfl
  rw [checkBlockPrelude, hheader]
  simp only [checkMerkleRoot, hshape, hlocks, Bool.false_eq_true, if_false]

theorem checkBlock_probe (hlength : out.scriptPubKey.length ≤ 26)
    (hclock : 0 ≤ env.getAdjustedTime + 2 * 60 * 60)
    (hrange : 0 ≤ out.nValue ∧ out.nValue ≤ MAX_MONEY) (tip : ChainTip) :
    (∃ b, checkBlock (env.at tip) (probeBlock out) false false = .ok b) ↔
      founderSearch env tip = false ∨
        (env.founderPayment.payeeMatchFounder out.scriptPubKey = true ∧
          founderAmount env tip ≤ out.nValue) := by
  have hprelude : checkBlockPrelude (env.at tip) (probeBlock out) false false = .ok () :=
    prelude_probe hlength hclock
  have hsigops : getLegacySigOpCount (probeTx out) ≤ MAX_BLOCK_SIGOPS :=
    (probeTx_sigOps hlength).trans (by decide)
  have hpays : paysFounder env tip (probeTx out) = true ↔
      env.founderPayment.payeeMatchFounder out.scriptPubKey = true ∧
        founderAmount env tip ≤ out.nValue := by
    simp [paysFounder_eq, probeTx]
  rw [checkBlock_ok_iff (env.at tip) rfl rfl, checkTxLoop_at, hprelude]
  simp only [true_and, probeBlock, checkTxLoop, checkTransaction_probe hlength hrange,
    List.map_singleton, List.sum_singleton, hsigops, and_true]
  cases hon : founderSearch env tip with
  | false => simp
  | true =>
    rw [← hpays]
    cases paysFounder env tip (probeTx out) with
    | false => simp
    | true => simp

end Probe

/-! ### Amounts -/

theorem declineSubsidy_iterate (n : ℕ) :
    0 ≤ declineSubsidy^[n] (10 * COIN) ∧ declineSubsidy^[n] (10 * COIN) ≤ 10 * COIN := by
  induction n with
  | zero => decide
  | succ n ih =>
    rw [Function.iterate_succ_apply', declineSubsidy, Int.tdiv_eq_ediv_of_nonneg ih.1]
    omega

theorem getBlockSubsidy_range (nSubsidyHalvingInterval nPrevBits : ℕ) (nPrevHeight : ℤ) :
    0 ≤ getBlockSubsidy nSubsidyHalvingInterval nPrevBits nPrevHeight ∧
      getBlockSubsidy nSubsidyHalvingInterval nPrevBits nPrevHeight ≤ MAX_MONEY := by
  have hdecline := declineSubsidy_iterate (nPrevHeight.toNat / nSubsidyHalvingInterval)
  have hcoin : COIN = 100000000 := rfl
  have hvalue : COIN * POST_MINE_VALUE = 50000000000000 := rfl
  have hmax : MAX_MONEY = 2100000000000000 := rfl
  rw [getBlockSubsidy]
  dsimp only
  split_ifs <;> omega

theorem founderAmount_range (env : CheckBlockEnv) (tip : ChainTip) :
    0 ≤ founderAmount env tip ∧ founderAmount env tip ≤ MAX_MONEY := by
  have hsubsidy := getBlockSubsidy_range env.nSubsidyHalvingInterval tip.nBits tip.nHeight
  rw [founderAmount, FounderPayment.getFounderPaymentAmount]
  split_ifs
  · exact ⟨le_refl 0, by decide⟩
  · rw [Int.tdiv_eq_ediv_of_nonneg hsubsidy.1]
    omega

theorem length_getScriptForDestination (d : CTxDestination) :
    (getScriptForDestination d).length ≤ 25 := by
  cases d with
  | noDestination => simp [getScriptForDestination]
  | keyID h => simp [getScriptForDestination, h.size_eq]
  | scriptID h => simp [getScriptForDestination, h.size_eq]

/-! ### Two tips -/

/-- **When the verdict of `CheckBlock` does not depend on the tip**: when under both tips the
founder is searched, for the same amount, or under none; or the clock is so far behind that
every block is too new. -/
theorem tipIndependent_iff (env : CheckBlockEnv) (t₁ t₂ : ChainTip) :
    TipIndependent env t₁ t₂ ↔
      (founderSearch env t₁ = founderSearch env t₂ ∧
        (founderSearch env t₁ = true → founderAmount env t₁ = founderAmount env t₂)) ∨
      env.getAdjustedTime + 2 * 60 * 60 < 0 := by
  constructor
  · intro h
    by_contra hcond
    rw [not_or, not_lt] at hcond
    obtain ⟨hdiffer, hclock⟩ := hcond
    have hsame : ∀ out : CTxOut, out.scriptPubKey.length ≤ 26 →
        0 ≤ out.nValue ∧ out.nValue ≤ MAX_MONEY →
        ((founderSearch env t₁ = false ∨
          (env.founderPayment.payeeMatchFounder out.scriptPubKey = true ∧
            founderAmount env t₁ ≤ out.nValue)) ↔
        (founderSearch env t₂ = false ∨
          (env.founderPayment.payeeMatchFounder out.scriptPubKey = true ∧
            founderAmount env t₂ ≤ out.nValue))) := by
      intro out hlength hrange
      rw [← checkBlock_probe hlength hclock hrange, ← checkBlock_probe hlength hclock hrange,
        h.verdict (probeBlock out) false false rfl]
    -- an output that pays no founder tells the searches apart
    have hsearch : founderSearch env t₁ = founderSearch env t₂ := by
      have hnone : env.founderPayment.payeeMatchFounder (List.replicate 26 0) = false := by
        rw [FounderPayment.payeeMatchFounder, List.any_eq_false]
        intro d _ hd
        have hlength := length_getScriptForDestination d
        rw [of_decide_eq_true hd, List.length_replicate] at hlength
        omega
      have hprobe := hsame ⟨0, List.replicate 26 0, 0⟩ (by simp) ⟨le_refl 0, by decide⟩
      simp only [hnone, Bool.false_eq_true, false_and, or_false] at hprobe
      cases h₁ : founderSearch env t₁ with
      | false => exact (hprobe.mp h₁).symm
      | true =>
        cases h₂ : founderSearch env t₂ with
        | false => exact absurd (hprobe.mpr h₂) (by simp [h₁])
        | true => rfl
    refine hdiffer ⟨hsearch, fun hon => ?_⟩
    -- an output of one amount tells the amounts apart
    have hpayee := env.founderPayment.payeeMatchFounder_current 0
    have hamounts : ∀ v, 0 ≤ v ∧ v ≤ MAX_MONEY →
        (founderAmount env t₁ ≤ v ↔ founderAmount env t₂ ≤ v) := by
      intro v hv
      have hprobe := hsame ⟨v, getScriptForDestination
        (env.founderPayment.getCurrentFounderAddress 0), 0⟩
        ((length_getScriptForDestination _).trans (by decide)) hv
      simpa [hpayee, hon, ← hsearch] using hprobe
    exact le_antisymm ((hamounts _ (founderAmount_range env t₂)).mpr (le_refl _))
      ((hamounts _ (founderAmount_range env t₁)).mp (le_refl _))
  · intro h
    refine ⟨fun block fCheckPOW fCheckMerkleRoot hf => ?_, ?_⟩
    · rw [checkBlock_at _ _ _ _ hf, checkBlock_at _ _ _ _ hf]
      rcases h with ⟨hsearch, hamount⟩ | hclock
      · rw [checkBlockTxs, checkBlockTxs, checkTxLoop_congr hsearch hamount]
      · -- the header fails
        have hheader : ∃ e, checkBlockHeader env block.toCBlockHeader fCheckPOW = .error e := by
          rw [checkBlockHeader]
          split_ifs with hpow hnew
          · exact ⟨_, rfl⟩
          · exact ⟨_, rfl⟩
          · exact absurd (lt_of_lt_of_le hclock (Int.natCast_nonneg _)) hnew
        obtain ⟨e, he⟩ := hheader
        rw [checkBlockPrelude, he]
        rfl
    · intro block fCheckPOW fCheckMerkleRoot b _ hchecked fCheckPOW' fCheckMerkleRoot'
      rw [checkBlock, if_pos hchecked]

/-- A block whose coinbase pays no founder. -/
def unpaidBlock : CBlock := { probeBlock (.of COIN [0x51]) with nTime := 1600000000 }

/-- The block is good while the tip is one block below the founder start, and rejected one block
later. -/
theorem unpaidBlock_tips :
    (∃ b, checkBlock (cutOffEnv.at ⟨FOUNDER_START_BLOCK - 1, 0x1e0ffff0⟩) unpaidBlock true true =
      .ok b) ∧
    checkBlock (cutOffEnv.at ⟨FOUNDER_START_BLOCK, 0x1e0ffff0⟩) unpaidBlock true true =
      dos 0 "founder-not-found" false ∧
    ¬ TipIndependent cutOffEnv ⟨FOUNDER_START_BLOCK - 1, 0x1e0ffff0⟩
      ⟨FOUNDER_START_BLOCK, 0x1e0ffff0⟩ := by
  have hgood : checkBlock (cutOffEnv.at ⟨FOUNDER_START_BLOCK - 1, 0x1e0ffff0⟩) unpaidBlock true
      true = .ok { unpaidBlock with fChecked := true } := by decide +kernel
  have hbad : checkBlock (cutOffEnv.at ⟨FOUNDER_START_BLOCK, 0x1e0ffff0⟩) unpaidBlock true true =
      dos 0 "founder-not-found" false := by decide +kernel
  refine ⟨⟨_, hgood⟩, hbad, fun h => ?_⟩
  have hsame := h.verdict unpaidBlock true true rfl
  rw [hgood, hbad] at hsame
  exact absurd hsame (by simp [dos])

end Stonecoin
