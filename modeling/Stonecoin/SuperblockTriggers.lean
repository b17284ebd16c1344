/-
From the triggers to the coinbase of a superblock (`CSuperblockManager`), and back to the checks
of the validator.

`IsSuperblockTriggered` brings the flags of the objects it looks at up to date.

The coinbase that `CreateSuperblock` completes makes all payments in their order
(`paymentsLoop_of_sublist`), so what remains is the limit.  `GetBlockSubsidy` has no part for
superblocks, and the limit is zero at all heights but two (`getPaymentsLimit_eq_zero`).

  * `built_superblock_accepted_iff`: when the node accepts what it has built.
-/
import Stonecoin.Superblocks
import Stonecoin.GovernanceManager
import Stonecoin.LockCandidates

namespace Stonecoin

/-- The bytes of a hash, as they lie in memory. -/
def hashBytes (h : UInt256) : List ℕ := (List.range 32).map fun i => (h.extractLsb' (8 * i) 8).toNat

/-- `operator<` of `uint256`, by `memcmp`. -/
def hashLt (a b : UInt256) : Bool := hashBytes a < hashBytes b

structure CSuperblockTrigger extends CSuperblock where
  nGovObjHash : UInt256
  nEpochStart : ℤ

variable {H : Type}

def CGovernanceManager.findGovernanceObject (m : CGovernanceManager H) (nHash : UInt256) :
    Option (CGovernanceObject H) :=
  (m.mapObjects.lookup nHash).map StoredObject.govobj

/-- The governance objects, and the triggers among them. -/
structure TriggerState (H : Type) where
  governance : CGovernanceManager H
  mapTrigger : AList fun _ : UInt256 => CSuperblockTrigger

namespace TriggerState

variable (params : SuperblockParams) (env : GovernanceEnv) (g : TriggerState H)

def getActiveTriggers : List CSuperblockTrigger :=
  (iterate hashLt g.mapTrigger).filterMap fun it =>
    if (g.governance.findGovernanceObject it.1).isSome then some it.2 else none

def triggeredLoop (nBlockHeight : ℤ) :
    CGovernanceManager H → List CSuperblockTrigger → Bool × CGovernanceManager H
  | m, [] => (false, m)
  | m, pSuperblock :: vecTriggers =>
    match m.findGovernanceObject pSuperblock.nGovObjHash with
    | none => triggeredLoop nBlockHeight m vecTriggers
    | some pObj =>
      if nBlockHeight ≠ pSuperblock.nEpochStart then triggeredLoop nBlockHeight m vecTriggers
      else
        let m := m.modifyObject pSuperblock.nGovObjHash (·.updateSentinelVariables env)
        if (pObj.updateSentinelVariables env).fCachedFunding then (true, m)
        else triggeredLoop nBlockHeight m vecTriggers

def isSuperblockTriggered (nBlockHeight : ℤ) : Bool × TriggerState H :=
  if !CSuperblock.isValidBlockHeight params nBlockHeight then (false, g)
  else
    let r := triggeredLoop env nBlockHeight g.governance g.getActiveTriggers
    (r.1, { g with governance := r.2 })

def bestLoop (m : CGovernanceManager H) (nBlockHeight : ℤ) :
    ℤ → Option CSuperblockTrigger → List CSuperblockTrigger → Option CSuperblockTrigger
  | _, pSuperblockRet, [] => pSuperblockRet
  | nYesCount, pSuperblockRet, pSuperblock :: vecTriggers =>
    match m.findGovernanceObject pSuperblock.nGovObjHash with
    | none => bestLoop m nBlockHeight nYesCount pSuperblockRet vecTriggers
    | some pObj =>
      if nBlockHeight ≠ pSuperblock.nEpochStart then
        bestLoop m nBlockHeight nYesCount pSuperblockRet vecTriggers
      else if nYesCount < pObj.getAbsoluteYesCount VOTE_SIGNAL_FUNDING then
        bestLoop m nBlockHeight (pObj.getAbsoluteYesCount VOTE_SIGNAL_FUNDING) (some pSuperblock)
          vecTriggers
      else bestLoop m nBlockHeight nYesCount pSuperblockRet vecTriggers

def getBestSuperblock (nBlockHeight : ℤ) : Option CSuperblockTrigger :=
  if !CSuperblock.isValidBlockHeight params nBlockHeight then none
  else bestLoop g.governance nBlockHeight 0 none g.getActiveTriggers

def createSuperblock (vout : List CTxOut) (nBlockHeight : ℤ) : List CTxOut :=
  match g.getBestSuperblock params nBlockHeight with
  | none => vout
  | some pSuperblock => vout ++ pSuperblock.vecPayments.map CGovernancePayment.output

/-- `CSuperblockManager::IsValid`; `none` is the exception of `GetValueOut`. -/
def isValid (txNew : CTransaction) (nBlockHeight blockReward : ℤ) : Option Bool :=
  match g.getBestSuperblock params nBlockHeight with
  | none => some false
  | some pSuperblock => pSuperblock.isValid params txNew nBlockHeight blockReward

/-- The payee rules with these superblocks.  An exception does not accept anything. -/
def payeeEnv (base : PayeeEnv) : PayeeEnv :=
  { base with
    nSuperblockStartBlock := params.nSuperblockStartBlock
    isSuperblockTriggered := fun nBlockHeight => (g.isSuperblockTriggered params env nBlockHeight).1
    createSuperblock := g.createSuperblock params
    superblockIsValid := fun txNew nBlockHeight blockReward =>
      g.isValid params txNew nBlockHeight blockReward = some true }

end TriggerState

/-- `IsBlockValueValid` of a block with this coinbase; `none` is the exception of
`GetValueOut`. -/
def PayeeEnv.isBlockValueValid (env : PayeeEnv) (params : SuperblockParams) (coinbase : CTransaction)
    (nBlockHeight blockReward : ℤ) : Option Bool :=
  match coinbase.getValueOut with
  | none => none
  | some nValueOut =>
    let isBlockRewardValueMet : Bool := nValueOut ≤ blockReward
    if nBlockHeight < env.nSuperblockStartBlock then
      let nOffset := nBlockHeight.tmod env.nBudgetPaymentsCycleBlocks
      if env.nBudgetPaymentsStartBlock ≤ nBlockHeight ∧
          nOffset < env.nBudgetPaymentsWindowBlocks then
        if env.isSynced && !env.spork13 then some isBlockRewardValueMet else some true
      else some isBlockRewardValueMet
    else
      let nSuperblockMaxValue := blockReward + CSuperblock.getPaymentsLimit params nBlockHeight
      if !env.isSynced then
        if CSuperblock.isValidBlockHeight params nBlockHeight then
          some (nValueOut ≤ nSuperblockMaxValue)
        else some isBlockRewardValueMet
      else if env.spork9 && env.isSuperblockTriggered nBlockHeight then
        some (env.superblockIsValid coinbase nBlockHeight blockReward)
      else some isBlockRewardValueMet

/-! ### Triggered and best -/

section Refreshed

variable {env : GovernanceEnv} {m m' m'' : CGovernanceManager H} {nBlockHeight : ℤ}

end Refreshed

/-! ### The coinbase -/

theorem paymentsLoop_of_sublist {vout : List CTxOut} : ∀ {payments : List CGovernancePayment}
    {n : ℕ}, List.Sublist (payments.map CGovernancePayment.output) (vout.drop n) →
    paymentsLoop vout n payments = true
  | [], _, _ => rfl
  | p :: payments, n, h => by
    rw [List.map_cons] at h
    obtain ⟨pre, rest, hdrop, hmem, hrest⟩ := List.cons_sublist_iff.mp h
    have hex : ∃ o ∈ vout.drop n, p.madeBy o = true :=
      ⟨p.output, hdrop ▸ List.mem_append_left _ hmem, madeBy_output⟩
    cases hfind : (vout.drop n).findIdx? p.madeBy with
    | none =>
      obtain ⟨o, ho, hmade⟩ := hex
      exact absurd hmade (by simp [List.findIdx?_eq_none_iff.mp hfind o ho])
    | some i =>
      have hloop : paymentsLoop vout n (p :: payments) = paymentsLoop vout (n + i) payments := by
        simp [paymentsLoop, findOutput, hfind]
      rw [hloop]
      apply paymentsLoop_of_sublist
      -- the first match lies in `pre`, so the rest of the outputs is behind it
      have hlt : i < pre.length := by
        obtain ⟨j, hj, hget⟩ := List.getElem_of_mem hmem
        by_contra hle
        have hbefore := (List.findIdx?_eq_some_iff_getElem.mp hfind).2.2 j (by omega)
        simp only [hdrop, List.getElem_append_left hj, hget] at hbefore
        exact hbefore madeBy_output
      rw [← List.drop_drop, hdrop, List.drop_append_of_le_length hlt.le]
      exact hrest.trans (List.sublist_append_right _ _)

theorem getPaymentsLimit_eq_zero {params : SuperblockParams} {nBlockHeight : ℤ}
    (hh : 250 ≤ nBlockHeight) (hpost : nBlockHeight + 1 ≠ POST_MINE_HEIGHT) :
    CSuperblock.getPaymentsLimit params nBlockHeight = 0 := by
  rw [CSuperblock.getPaymentsLimit]
  split_ifs
  · rfl
  · rw [getBlockSubsidyOf, if_neg (by omega), if_neg (by omega), if_neg (by omega)]
    simp [hpost]

namespace TriggerState

variable {H' : Type} {params : SuperblockParams} {env : GovernanceEnv} {g : TriggerState H}
  {base : PayeeEnv} {nBlockHeight : ℤ}

theorem accepted_iff (m : CMasternodePayments H') (hspork : base.spork9 = true)
    (hsync : base.isSynced = true)
    (htriggered : (g.isSuperblockTriggered params env nBlockHeight).1 = true)
    (tx : CTransaction) (blockReward : ℤ) :
    ((g.payeeEnv params env base).isBlockValueValid params tx nBlockHeight blockReward = some true ∧
      (g.payeeEnv params env base).isBlockPayeeValid m tx nBlockHeight blockReward = some true) ↔
    g.isValid params tx nBlockHeight blockReward = some true := by
  have hheight : CSuperblock.isValidBlockHeight params nBlockHeight = true := by
    rw [isSuperblockTriggered] at htriggered
    by_contra hnot
    rw [Bool.not_eq_true] at hnot
    rw [hnot] at htriggered
    exact absurd htriggered Bool.false_ne_true
  have hstart : ¬ nBlockHeight < params.nSuperblockStartBlock := by
    rw [CSuperblock.isValidBlockHeight, decide_eq_true_iff] at hheight
    exact not_lt.mpr hheight.1
  have hpayee : (g.payeeEnv params env base).isBlockPayeeValid m tx nBlockHeight blockReward =
      some (decide (g.isValid params tx nBlockHeight blockReward = some true)) := by
    simp [PayeeEnv.isBlockPayeeValid, payeeEnv, hsync, hspork, htriggered, hstart]
  have hvalue : ∀ v, tx.getValueOut = some v →
      (g.payeeEnv params env base).isBlockValueValid params tx nBlockHeight blockReward =
        some (decide (g.isValid params tx nBlockHeight blockReward = some true)) := by
    intro v hv
    simp [PayeeEnv.isBlockValueValid, payeeEnv, hsync, hspork, htriggered, hstart, hv]
  rw [hpayee]
  constructor
  · rintro ⟨-, hvalid⟩
    exact of_decide_eq_true (Option.some.inj hvalid)
  · intro hvalid
    have hout : ∃ v, tx.getValueOut = some v := by
      rw [isValid] at hvalid
      cases hbest : g.getBestSuperblock params nBlockHeight with
      | none =>
        rw [hbest] at hvalid
        exact absurd hvalid (by simp)
      | some pSuperblock =>
        rw [hbest] at hvalid
        obtain ⟨-, -, ⟨v, hv, -⟩, -⟩ := (isValid_iff hheight).mp hvalid
        exact ⟨v, hv⟩
    obtain ⟨v, hv⟩ := hout
    rw [hvalue v hv, decide_eq_true hvalid]
    exact ⟨rfl, rfl⟩

/-- **When the node accepts the superblock it has built**: there is a best superblock, its payments
are within the limit, and with the reward they are an amount of money. -/
theorem built_superblock_accepted_iff (m : CMasternodePayments H') (hspork : base.spork9 = true)
    (hsync : base.isSynced = true)
    (htriggered : (g.isSuperblockTriggered params env nBlockHeight).1 = true)
    {R : ℤ} (hR : 0 ≤ R) {script : CScript} {tx : CTransaction}
    (htx : tx.vout = (g.payeeEnv params env base).fillBlockPayments m [CTxOut.of R script]
      nBlockHeight R) :
    ((g.payeeEnv params env base).isBlockValueValid params tx nBlockHeight R = some true ∧
      (g.payeeEnv params env base).isBlockPayeeValid m tx nBlockHeight R = some true) ↔
    ∃ pSuperblock, g.getBestSuperblock params nBlockHeight = some pSuperblock ∧
      pSuperblock.getPaymentsTotalAmount ≤ CSuperblock.getPaymentsLimit params nBlockHeight ∧
      R + pSuperblock.getPaymentsTotalAmount ≤ MAX_MONEY := by
  rw [accepted_iff m hspork hsync htriggered, isValid]
  cases hbest : g.getBestSuperblock params nBlockHeight with
  | none => simp
  | some pSuperblock =>
    have hheight : CSuperblock.isValidBlockHeight params nBlockHeight = true := by
      by_contra hnot
      rw [getBestSuperblock, if_pos (by simp [hnot])] at hbest
      exact absurd hbest (by simp)
    have hvout : tx.vout = CTxOut.of R script ::
        pSuperblock.vecPayments.map CGovernancePayment.output := by
      rw [htx, PayeeEnv.fillBlockPayments, if_pos (by simp [payeeEnv, hspork, htriggered])]
      show g.createSuperblock params [CTxOut.of R script] nBlockHeight = _
      rw [createSuperblock, hbest]
      rfl
    have hnonneg : ∀ o ∈ tx.vout, 0 ≤ o.nValue := by
      intro o ho
      rw [hvout] at ho
      rcases List.mem_cons.mp ho with rfl | ho
      · exact hR
      · obtain ⟨p, -, rfl⟩ := List.mem_map.mp ho
        exact nAmount_nonneg p
    have hsum : (tx.vout.map (·.nValue)).sum = R + pSuperblock.getPaymentsTotalAmount := by
      have hvalue : (fun o : CTxOut => o.nValue) ∘ CGovernancePayment.output = (·.nAmount) := rfl
      rw [hvout, List.map_cons, List.sum_cons, List.map_map, hvalue]
      rfl
    have hout : tx.getValueOut = if R + pSuperblock.getPaymentsTotalAmount ≤ MAX_MONEY then
        some (R + pSuperblock.getPaymentsTotalAmount) else none := by
      rw [CTransaction.getValueOut, getValueOutLoop_eq hnonneg (Int.le_refl 0) (by decide), hsum,
        Int.zero_add]
    have hloop : paymentsLoop tx.vout 0 pSuperblock.vecPayments = true := by
      apply paymentsLoop_of_sublist
      rw [List.drop_zero, hvout]
      exact List.sublist_cons_self _ _
    show pSuperblock.toCSuperblock.isValid params tx nBlockHeight R = some true ↔ _
    rw [isValid_iff hheight, hout]
    constructor
    · rintro ⟨-, hlimit, ⟨v, hv, -⟩, -⟩
      by_cases hmax : R + pSuperblock.getPaymentsTotalAmount ≤ MAX_MONEY
      · exact ⟨pSuperblock, rfl, hlimit, hmax⟩
      · rw [if_neg hmax] at hv
        exact absurd hv (by simp)
    · rintro ⟨b, hb, hlimit, hmax⟩
      obtain rfl := Option.some.inj hb
      refine ⟨?_, hlimit, ⟨_, if_pos hmax, le_refl _⟩, hloop⟩
      simp [CSuperblock.countPayments, hvout]

def fundedObject : CGovernanceObject ℕ :=
  { CGovernanceObject.received 7 2 0 with
    mapCurrentMNVotes := (List.range 10).foldl (fun votes i =>
      votes.insert (i : ℤ) ((∅ : vote_rec_t).insert VOTE_SIGNAL_FUNDING
        ⟨VOTE_OUTCOME_YES, 0, 0⟩)) ∅ }

/-- The object is a trigger for the second superblock of the main network. -/
def fundedState (nAmount : ℤ) (h : moneyRange nAmount = true) : TriggerState ℕ where
  governance :=
    { (CGovernanceManager.init : CGovernanceManager ℕ) with
      mapObjects := (∅ : AList fun _ : UInt256 => StoredObject ℕ).insert 7 ⟨0, fundedObject⟩ }
  mapTrigger := (∅ : AList fun _ : UInt256 => CSuperblockTrigger).insert 7
    { vecPayments := [⟨[0x51], nAmount, h⟩], nGovObjHash := 7, nEpochStart := 99696 }

/-- A node that knows ten masternodes. -/
def fundingEnv : GovernanceEnv where
  getTime := 0
  getAdjustedTime := 0
  getMasternodeIndex := fun _ => -1
  getMasternodeVin := fun _ => none
  getMasternodeInfo := fun _ => none
  verifyMessage := fun _ _ _ _ _ _ _ => false
  countEnabled := 10
  nGovernanceMinQuorum := 10

/-- A payment of nothing. -/
theorem built_superblock_accepted_iff_zero :
    let env := (fundedState 0 rfl).payeeEnv mainParams fundingEnv PayeeEnv.minerEnv
    let tx : CTransaction := ⟨0, 1, [⟨COutPoint.null, [], 0⟩],
      env.fillBlockPayments (CMasternodePayments.empty : CMasternodePayments ℕ)
        [CTxOut.of COIN [2]] 99696 COIN, 0⟩
    (env.isBlockValueValid mainParams tx 99696 COIN = some true ∧
      env.isBlockPayeeValid (CMasternodePayments.empty : CMasternodePayments ℕ) tx 99696 COIN =
        some true) ↔
    ∃ pSuperblock, (fundedState 0 rfl).getBestSuperblock mainParams 99696 = some pSuperblock ∧
      pSuperblock.getPaymentsTotalAmount ≤ CSuperblock.getPaymentsLimit mainParams 99696 ∧
      COIN + pSuperblock.getPaymentsTotalAmount ≤ MAX_MONEY :=
  built_superblock_accepted_iff CMasternodePayments.empty rfl rfl (by decide +kernel) (by decide) rfl

/-- **A payment of one coin**: the height is triggered, and every coinbase is rejected. -/
theorem one_coin_rejected :
    ((fundedState COIN rfl).isSuperblockTriggered mainParams fundingEnv 99696).1 = true ∧
    ∀ tx R, ¬ (((fundedState COIN rfl).payeeEnv mainParams fundingEnv
        PayeeEnv.minerEnv).isBlockValueValid mainParams tx 99696 R = some true ∧
      ((fundedState COIN rfl).payeeEnv mainParams fundingEnv PayeeEnv.minerEnv).isBlockPayeeValid
        (CMasternodePayments.empty : CMasternodePayments ℕ) tx 99696 R = some true) := by
  have htriggered : ((fundedState COIN rfl).isSuperblockTriggered mainParams fundingEnv 99696).1 =
      true := by decide +kernel
  refine ⟨htriggered, fun tx R haccepted => ?_⟩
  rw [accepted_iff CMasternodePayments.empty rfl rfl htriggered, isValid] at haccepted
  cases hbest : (fundedState COIN rfl).getBestSuperblock mainParams 99696 with
  | none =>
    rw [hbest] at haccepted
    exact absurd haccepted (by simp)
  | some pSuperblock =>
    rw [hbest] at haccepted
    have htotal : ((fundedState COIN rfl).getBestSuperblock mainParams 99696).map
        (fun b => b.getPaymentsTotalAmount) = some COIN := by decide +kernel
    rw [hbest] at htotal
    have hcoin : pSuperblock.getPaymentsTotalAmount = COIN := Option.some.inj htotal
    have hlimit := ((isValid_iff (by decide)).mp haccepted).2.1
    rw [hcoin, getPaymentsLimit_eq_zero (by decide) (by decide)] at hlimit
    exact absurd hlimit (by decide)

end TriggerState

end Stonecoin
