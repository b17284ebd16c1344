/-
Superblocks (`governance-classes.cpp`): the payments of a trigger, their limit, and
`CSuperblock::IsValid`.

The validator looks for each payment from the output on that has paid the payment before it,
so a payment that repeats the one before it is found in the same output.  Of a run of equal
payments one output is needed (`paymentsLoop_spec`, `paymentsLoop_compressed`), and the rest
of the total is the miner's: every block that is valid makes each payment by an output of its
own exactly when no payment equals the one before it, or no block can be valid at all
(`payments_apart_iff`).
-/
import Stonecoin.BlockPayees
import Mathlib.Data.List.Destutter
import Mathlib.Algebra.BigOperators.Group.Finset.Basic
import Mathlib.Algebra.BigOperators.Intervals
import Mathlib.Algebra.Order.BigOperators.Group.Finset

namespace Stonecoin

/-! ### Payments -/

/-- `CGovernancePayment`.  `ParsePaymentAmount` refuses an amount out of range. -/
structure CGovernancePayment where
  script : CScript
  nAmount : ℤ
  inRange : moneyRange nAmount = true
deriving DecidableEq

/-- The members of `Consensus::Params` that matter here. -/
structure SuperblockParams where
  nSuperblockStartBlock : ℤ
  nSuperblockCycle : ℤ
  nSubsidyHalvingInterval : ℕ

/-- `GetBlockSubsidy`, with the flag that takes the miner's part out. -/
def getBlockSubsidyOf (nSubsidyHalvingInterval : ℕ) (_nPrevBits : ℕ) (nPrevHeight : ℤ)
    (fSuperblockPartOnly : Bool) : ℤ :=
  if nPrevHeight = 0 then 500000 * COIN
  else if nPrevHeight < 250 ∧ nPrevHeight + 1 ≠ POST_MINE_HEIGHT then COIN
  else if nPrevHeight + 1 = POST_MINE_HEIGHT ∧ nPrevHeight < 250 then
    COIN * POST_MINE_VALUE + COIN
  else
    let ret := if nPrevHeight + 1 = POST_MINE_HEIGHT then COIN * POST_MINE_VALUE else 0
    let nSubsidy :=
      if nPrevHeight + 1 ≠ POST_MINE_HEIGHT ∧ 250 ≤ nPrevHeight then
        declineSubsidy^[nPrevHeight.toNat / nSubsidyHalvingInterval] (10 * COIN)
      else 10 * COIN
    ret + if fSuperblockPartOnly then 0 else nSubsidy

structure CSuperblock where
  vecPayments : List CGovernancePayment

namespace CSuperblock

def isValidBlockHeight (params : SuperblockParams) (nBlockHeight : ℤ) : Bool :=
  params.nSuperblockStartBlock ≤ nBlockHeight ∧ nBlockHeight.tmod params.nSuperblockCycle = 0

def getPaymentsLimit (params : SuperblockParams) (nBlockHeight : ℤ) : ℤ :=
  if !isValidBlockHeight params nBlockHeight then 0
  else getBlockSubsidyOf params.nSubsidyHalvingInterval 1 nBlockHeight true *
    params.nSuperblockCycle

def countPayments (b : CSuperblock) : ℕ := b.vecPayments.length

def getPaymentsTotalAmount (b : CSuperblock) : ℤ := (b.vecPayments.map (·.nAmount)).sum

end CSuperblock

def CGovernancePayment.madeBy (payment : CGovernancePayment) (o : CTxOut) : Bool :=
  payment.script = o.scriptPubKey ∧ payment.nAmount = o.nValue

/-- The inner loop of `IsValid`: the first output that makes a payment. -/
def findOutput (vout : List CTxOut) (nVoutIndex : ℕ) (payment : CGovernancePayment) : Option ℕ :=
  ((vout.drop nVoutIndex).findIdx? payment.madeBy).map (nVoutIndex + ·)

def paymentsLoop (vout : List CTxOut) : ℕ → List CGovernancePayment → Bool
  | _, [] => true
  | nVoutIndex, payment :: payments =>
    match findOutput vout nVoutIndex payment with
    | none => false
    -- the search for the next payment starts at this output, not behind it
    | some j => paymentsLoop vout j payments

/-- `CSuperblock::IsValid`; `none` is the exception of `GetValueOut`. -/
def CSuperblock.isValid (b : CSuperblock) (params : SuperblockParams) (txNew : CTransaction)
    (nBlockHeight blockReward : ℤ) : Option Bool :=
  if !isValidBlockHeight params nBlockHeight then some false
  else if txNew.vout.length < b.countPayments then some false
  else if getPaymentsLimit params nBlockHeight < b.getPaymentsTotalAmount then some false
  else
    match txNew.getValueOut with
    | none => none
    | some nBlockValue =>
      if blockReward + b.getPaymentsTotalAmount < nBlockValue then some false
      else some (paymentsLoop txNew.vout 0 b.vecPayments)

/-! ### Outputs of their own -/

/-- The outputs at `js` make the payments, in order and each one payment. -/
structure PaidAt (vout : List CTxOut) (payments : List CGovernancePayment) (js : List ℕ) :
    Prop where
  increasing : js.Pairwise (· < ·)
  made : List.Forall₂ (fun (p : CGovernancePayment) j => ∃ o, vout[j]? = some o ∧
    p.madeBy o = true) payments js

def valueAt (vout : List CTxOut) (j : ℕ) : ℤ := ((vout[j]?).map (·.nValue)).getD 0

def valueOfOthers (vout : List CTxOut) (js : List ℕ) : ℤ :=
  ∑ j ∈ Finset.range vout.length \ js.toFinset, valueAt vout j

/-- **Each payment is made by an output of its own**, within the limit, and nobody else gets
more than the reward. -/
def CSuperblock.PaymentsApart (b : CSuperblock) (params : SuperblockParams)
    (txNew : CTransaction) (nBlockHeight blockReward : ℤ) : Prop :=
  (∃ js, PaidAt txNew.vout b.vecPayments js ∧ valueOfOthers txNew.vout js ≤ blockReward) ∧
    b.getPaymentsTotalAmount ≤ getPaymentsLimit params nBlockHeight

/-- The payments with immediate repetitions counted once. -/
def compress (payments : List CGovernancePayment) : List CGovernancePayment :=
  payments.destutter (· ≠ ·)

variable {vout : List CTxOut} {p q : CGovernancePayment} {payments : List CGovernancePayment}
  {js : List ℕ}

/-! ### The scan -/

theorem madeBy_iff {o : CTxOut} :
    p.madeBy o = true ↔ p.script = o.scriptPubKey ∧ p.nAmount = o.nValue := by
  simp [CGovernancePayment.madeBy]

theorem madeBy_unique {o : CTxOut} (hp : p.madeBy o = true) (hq : q.madeBy o = true) : p = q := by
  obtain ⟨hscript, hamount⟩ := madeBy_iff.mp hp
  obtain ⟨hscript', hamount'⟩ := madeBy_iff.mp hq
  obtain ⟨script, nAmount, inRange⟩ := p
  obtain ⟨script', nAmount', inRange'⟩ := q
  obtain rfl : script = script' := hscript.trans hscript'.symm
  obtain rfl : nAmount = nAmount' := hamount.trans hamount'.symm
  rfl

theorem findOutput_eq_some {n j : ℕ} (h : findOutput vout n p = some j) :
    n ≤ j ∧ ∃ o, vout[j]? = some o ∧ p.madeBy o = true := by
  obtain ⟨i, hi, rfl⟩ := Option.map_eq_some_iff.mp h
  obtain ⟨hlt, hmade, -⟩ := List.findIdx?_eq_some_iff_getElem.mp hi
  refine ⟨Nat.le_add_right n i, _, ?_, hmade⟩
  rw [← List.getElem?_drop, List.getElem?_eq_getElem hlt]

theorem findOutput_of_head {n : ℕ} {o : CTxOut} {rest : List CTxOut}
    (hdrop : vout.drop n = o :: rest) (hmade : p.madeBy o = true) :
    findOutput vout n p = some n := by
  rw [findOutput, hdrop, List.findIdx?_cons, if_pos hmade]
  rfl

theorem findOutput_of_second {n : ℕ} {o o' : CTxOut} {rest : List CTxOut}
    (hdrop : vout.drop n = o :: o' :: rest) (hnot : p.madeBy o = false)
    (hmade : p.madeBy o' = true) : findOutput vout n p = some (n + 1) := by
  rw [findOutput, hdrop, List.findIdx?_cons, hnot, List.findIdx?_cons, if_pos hmade]
  rfl

/-- **What a scan has found**: outputs of their own for the payments without their immediate
repetitions. -/
theorem paymentsLoop_from : ∀ {payments : List CGovernancePayment} {p : CGovernancePayment}
    {n : ℕ} {o : CTxOut}, vout[n]? = some o → p.madeBy o = true →
    paymentsLoop vout n payments = true →
    ∃ js, PaidAt vout (payments.destutter' (· ≠ ·) p) js ∧ ∀ j ∈ js, n ≤ j
  | [], p, n, o, ho, hmade, _ =>
    ⟨[n], ⟨List.pairwise_singleton _ _, .cons ⟨o, ho, hmade⟩ .nil⟩, by simp⟩
  | q :: payments, p, n, o, ho, hmade, h => by
    rw [paymentsLoop] at h
    cases hfind : findOutput vout n q with
    | none => rw [hfind] at h; exact absurd h Bool.false_ne_true
    | some j =>
      rw [hfind] at h
      obtain ⟨hnj, o', ho', hmade'⟩ := findOutput_eq_some hfind
      obtain ⟨js, hpaid, hge⟩ := paymentsLoop_from ho' hmade' h
      rcases eq_or_ne p q with rfl | hne
      · exact ⟨js, by rwa [List.destutter'_cons_neg (R := (· ≠ ·)) payments (by simp)],
          fun i hi => hnj.trans (hge i hi)⟩
      · -- an output makes one payment, so this one lies behind
        have hlt : n < j := by
          refine lt_of_le_of_ne hnj fun heq => hne ?_
          rw [← heq, ho] at ho'
          obtain rfl := Option.some.inj ho'
          exact madeBy_unique hmade hmade'
        rw [List.destutter'_cons_pos (R := (· ≠ ·)) payments hne]
        refine ⟨n :: js, ⟨List.pairwise_cons.mpr ⟨fun i hi => hlt.trans_le (hge i hi),
          hpaid.increasing⟩, .cons ⟨o, ho, hmade⟩ hpaid.made⟩, fun i hi => ?_⟩
        rcases List.mem_cons.mp hi with rfl | hi
        · exact Nat.le_refl _
        · exact hnj.trans (hge i hi)

theorem paymentsLoop_spec (h : paymentsLoop vout 0 payments = true) :
    ∃ js, PaidAt vout (compress payments) js := by
  cases payments with
  | nil => exact ⟨[], .nil, .nil⟩
  | cons p payments =>
    rw [paymentsLoop] at h
    cases hfind : findOutput vout 0 p with
    | none => rw [hfind] at h; exact absurd h Bool.false_ne_true
    | some j =>
      rw [hfind] at h
      obtain ⟨-, o, ho, hmade⟩ := findOutput_eq_some hfind
      obtain ⟨js, hpaid, -⟩ := paymentsLoop_from ho hmade h
      exact ⟨js, hpaid⟩

/-! ### Values -/

theorem valueAt_nonneg (h : ∀ o ∈ vout, 0 ≤ o.nValue) (j : ℕ) : 0 ≤ valueAt vout j := by
  cases ho : vout[j]? with
  | none => simp [valueAt, ho]
  | some o =>
    rw [valueAt, ho]
    exact h o (List.mem_of_getElem? ho)

theorem sum_valueAt : ∀ vout : List CTxOut,
    ∑ j ∈ Finset.range vout.length, valueAt vout j = (vout.map (·.nValue)).sum
  | [] => by simp
  | o :: vout => by
    rw [List.length_cons, Finset.sum_range_succ', List.map_cons, List.sum_cons,
      ← sum_valueAt vout, Int.add_comm]
    simp [valueAt]

namespace PaidAt

theorem subset_range (h : PaidAt vout payments js) :
    js.toFinset ⊆ Finset.range vout.length := by
  intro j hj
  obtain ⟨i, hi, rfl⟩ := List.getElem_of_mem (List.mem_toFinset.mp hj)
  obtain ⟨o, ho, -⟩ := h.made.get (h.made.length_eq ▸ hi) hi
  exact Finset.mem_range.mpr (List.getElem?_eq_some_iff.mp ho).1

theorem nodup (h : PaidAt vout payments js) : js.Nodup :=
  h.increasing.imp fun hlt => Nat.ne_of_lt hlt

theorem sum_eq (h : PaidAt vout payments js) :
    ∑ j ∈ js.toFinset, valueAt vout j = (payments.map (·.nAmount)).sum := by
  have hmap : ∀ {payments : List CGovernancePayment} {js : List ℕ},
      List.Forall₂ (fun (p : CGovernancePayment) j => ∃ o, vout[j]? = some o ∧
        p.madeBy o = true) payments js →
      js.map (valueAt vout) = payments.map (·.nAmount) := by
    intro payments js hmade
    induction hmade with
    | nil => rfl
    | cons hfirst _ ih =>
      obtain ⟨o, ho, hp⟩ := hfirst
      rw [List.map_cons, List.map_cons, ih, valueAt, ho, (madeBy_iff.mp hp).2]
      rfl
  rw [List.sum_toFinset _ h.nodup, hmap h.made]

theorem others_eq (h : PaidAt vout payments js) :
    valueOfOthers vout js = (vout.map (·.nValue)).sum - (payments.map (·.nAmount)).sum := by
  have hsum := Finset.sum_sdiff (f := valueAt vout) h.subset_range
  rw [sum_valueAt, h.sum_eq] at hsum
  rw [valueOfOthers]
  omega

end PaidAt

/-! ### Valid blocks -/

variable {b : CSuperblock} {params : SuperblockParams} {txNew : CTransaction}
  {nBlockHeight blockReward : ℤ}

theorem isValid_iff (hh : CSuperblock.isValidBlockHeight params nBlockHeight = true) :
    b.isValid params txNew nBlockHeight blockReward = some true ↔
      b.countPayments ≤ txNew.vout.length ∧
      b.getPaymentsTotalAmount ≤ CSuperblock.getPaymentsLimit params nBlockHeight ∧
      (∃ v, txNew.getValueOut = some v ∧ v ≤ blockReward + b.getPaymentsTotalAmount) ∧
      paymentsLoop txNew.vout 0 b.vecPayments = true := by
  rw [CSuperblock.isValid, hh, if_neg (by simp)]
  by_cases hcount : txNew.vout.length < b.countPayments
  · simp [hcount, Nat.not_le.mpr hcount]
  rw [if_neg hcount]
  by_cases hlimit : CSuperblock.getPaymentsLimit params nBlockHeight < b.getPaymentsTotalAmount
  · simp [hlimit, Int.not_le.mpr hlimit]
  rw [if_neg hlimit]
  cases hvalue : txNew.getValueOut with
  | none => simp
  | some v =>
    by_cases hv : blockReward + b.getPaymentsTotalAmount < v
    · simp [hv, Int.not_le.mpr hv]
    · simp [hv, Nat.not_lt.mp hcount, Int.not_lt.mp hlimit, Int.not_lt.mp hv]

theorem paymentsLoop_compressed
    (hh : CSuperblock.isValidBlockHeight params nBlockHeight = true)
    (h : b.isValid params txNew nBlockHeight blockReward = some true) :
    ∃ js, PaidAt txNew.vout (compress b.vecPayments) js ∧
      ((compress b.vecPayments).map (·.nAmount)).sum ≤ MAX_MONEY ∧
      valueOfOthers txNew.vout js + ((compress b.vecPayments).map (·.nAmount)).sum ≤
        blockReward + b.getPaymentsTotalAmount := by
  obtain ⟨-, -, ⟨v, hvalue, hv⟩, hloop⟩ := (isValid_iff hh).mp h
  obtain ⟨hnonneg, rfl, hmax⟩ := getValueOutLoop_some (by decide) hvalue
  obtain ⟨js, hpaid⟩ := paymentsLoop_spec hloop
  have hothers := hpaid.others_eq
  have hrest : 0 ≤ valueOfOthers txNew.vout js :=
    Finset.sum_nonneg fun j _ => valueAt_nonneg hnonneg j
  exact ⟨js, hpaid, by omega, by omega⟩

/-! ### A block with one output for a run of payments -/

def CGovernancePayment.output (p : CGovernancePayment) : CTxOut := CTxOut.of p.nAmount p.script

/-- Outputs for the payments without their immediate repetitions, and as many outputs of
nothing to `script` as are missing. -/
def mergedOutputs (payments : List CGovernancePayment) (script : CScript) : List CTxOut :=
  (compress payments).map (·.output) ++
    List.replicate (payments.length - (compress payments).length) (CTxOut.of 0 script)

def mergedCoinbase (payments : List CGovernancePayment) (script : CScript) : CTransaction :=
  ⟨0, 1, [⟨COutPoint.null, [], 0⟩], mergedOutputs payments script, 0⟩

theorem madeBy_output : p.madeBy p.output = true := madeBy_iff.mpr ⟨rfl, rfl⟩

theorem destutter'_eq_cons : ∀ (payments : List CGovernancePayment) (p : CGovernancePayment),
    ∃ rest, payments.destutter' (· ≠ ·) p = p :: rest
  | [], p => ⟨[], rfl⟩
  | q :: payments, p => by
    by_cases h : p = q
    · rw [List.destutter'_cons_neg (R := (· ≠ ·)) payments (by simpa using h)]
      exact destutter'_eq_cons payments p
    · exact ⟨_, List.destutter'_cons_pos (R := (· ≠ ·)) payments h⟩

theorem findOutput_first {n : ℕ} {rest : List CTxOut}
    (hdrop : vout.drop n = (payments.destutter' (· ≠ ·) p).map (·.output) ++ rest) :
    findOutput vout n p = some n := by
  obtain ⟨t, ht⟩ := destutter'_eq_cons payments p
  rw [ht] at hdrop
  exact findOutput_of_head hdrop madeBy_output

theorem paymentsLoop_of_drop : ∀ {payments : List CGovernancePayment} {p : CGovernancePayment}
    {n : ℕ} {rest : List CTxOut},
    vout.drop n = (payments.destutter' (· ≠ ·) p).map (·.output) ++ rest →
    paymentsLoop vout n payments = true
  | [], _, _, _, _ => rfl
  | q :: payments, p, n, rest, hdrop => by
    rcases eq_or_ne p q with rfl | hne
    · rw [List.destutter'_cons_neg (R := (· ≠ ·)) payments (by simp)] at hdrop
      rw [paymentsLoop, findOutput_first hdrop]
      exact paymentsLoop_of_drop hdrop
    · rw [List.destutter'_cons_pos (R := (· ≠ ·)) payments hne] at hdrop
      have hfind : findOutput vout n q = some (n + 1) := by
        obtain ⟨t, ht⟩ := destutter'_eq_cons payments q
        rw [ht] at hdrop
        refine findOutput_of_second hdrop ?_ madeBy_output
        exact Bool.eq_false_iff.mpr fun hmade => hne (madeBy_unique madeBy_output hmade)
      have hdrop' : vout.drop (n + 1) =
          (payments.destutter' (· ≠ ·) q).map (·.output) ++ rest := by
        rw [← List.drop_drop, hdrop]
        rfl
      rw [paymentsLoop, hfind]
      exact paymentsLoop_of_drop hdrop'

theorem paymentsLoop_merged (payments : List CGovernancePayment) (script : CScript) :
    paymentsLoop (mergedOutputs payments script) 0 payments = true := by
  cases payments with
  | nil => rfl
  | cons p payments =>
    have hdrop : (mergedOutputs (p :: payments) script).drop 0 =
        (payments.destutter' (· ≠ ·) p).map (·.output) ++ List.replicate
          ((p :: payments).length - (compress (p :: payments)).length) (CTxOut.of 0 script) := rfl
    rw [paymentsLoop, findOutput_first hdrop]
    exact paymentsLoop_of_drop hdrop

theorem length_compress_le (payments : List CGovernancePayment) :
    (compress payments).length ≤ payments.length :=
  (List.destutter_sublist (· ≠ ·) payments).length_le

theorem nAmount_nonneg (p : CGovernancePayment) : 0 ≤ p.nAmount := (moneyRange_iff.mp p.inRange).1

theorem sum_compress_le (payments : List CGovernancePayment) :
    ((compress payments).map (·.nAmount)).sum ≤ (payments.map (·.nAmount)).sum := by
  refine ((List.destutter_sublist (· ≠ ·) payments).map (·.nAmount)).sum_le_sum fun v hv => ?_
  obtain ⟨p, -, rfl⟩ := List.mem_map.mp hv
  exact nAmount_nonneg p

theorem sum_mergedOutputs (payments : List CGovernancePayment) (script : CScript) :
    ((mergedOutputs payments script).map (·.nValue)).sum =
      ((compress payments).map (·.nAmount)).sum := by
  have hvalue : (fun o : CTxOut => o.nValue) ∘ CGovernancePayment.output = (·.nAmount) := rfl
  simp [mergedOutputs, hvalue, CTxOut.of]

theorem length_mergedOutputs (payments : List CGovernancePayment) (script : CScript) :
    (mergedOutputs payments script).length = payments.length := by
  have hle := length_compress_le payments
  simp [mergedOutputs]
  omega

theorem isValid_merged (hh : CSuperblock.isValidBlockHeight params nBlockHeight = true)
    (hlimit : b.getPaymentsTotalAmount ≤ CSuperblock.getPaymentsLimit params nBlockHeight)
    (hmax : ((compress b.vecPayments).map (·.nAmount)).sum ≤ MAX_MONEY) (script : CScript) :
    b.isValid params (mergedCoinbase b.vecPayments script) nBlockHeight 0 = some true := by
  have hnonneg : ∀ o ∈ mergedOutputs b.vecPayments script, 0 ≤ o.nValue := by
    intro o ho
    rcases List.mem_append.mp ho with ho | ho
    · obtain ⟨p, -, rfl⟩ := List.mem_map.mp ho
      exact nAmount_nonneg p
    · rw [List.eq_of_mem_replicate ho]
      exact Int.le_refl 0
  have hvalue : (mergedCoinbase b.vecPayments script).getValueOut =
      some ((compress b.vecPayments).map (·.nAmount)).sum := by
    show getValueOutLoop 0 (mergedOutputs b.vecPayments script) = _
    rw [getValueOutLoop_eq hnonneg (Int.le_refl 0) (by decide), sum_mergedOutputs, Int.zero_add,
      if_pos hmax]
  refine (isValid_iff hh).mpr ⟨?_, hlimit, ⟨_, hvalue, ?_⟩, paymentsLoop_merged _ script⟩
  · exact (length_mergedOutputs b.vecPayments script).ge
  · rw [Int.zero_add]
    exact sum_compress_le b.vecPayments

theorem isChain_of_paid_merged {script : CScript} (hscript : ∀ p ∈ payments, p.script ≠ script)
    (h : PaidAt (mergedOutputs payments script) payments js) : payments.IsChain (· ≠ ·) := by
  have hsub : js.toFinset ⊆ Finset.range (compress payments).length := by
    intro j hj
    obtain ⟨i, hi, rfl⟩ := List.getElem_of_mem (List.mem_toFinset.mp hj)
    obtain ⟨o, ho, hmade⟩ := h.made.get (h.made.length_eq ▸ hi) hi
    by_contra hout
    -- behind the merged outputs there is nothing for a payment
    rw [Finset.mem_range, Nat.not_lt] at hout
    rw [mergedOutputs, List.get_eq_getElem, List.getElem?_append_right (by simpa using hout)] at ho
    have hpad := List.eq_of_mem_replicate (List.mem_of_getElem? ho)
    rw [hpad] at hmade
    exact hscript _ (List.get_mem _ _) (madeBy_iff.mp hmade).1
  have hcard : payments.length ≤ (compress payments).length := by
    rw [h.made.length_eq, ← List.toFinset_card_of_nodup h.nodup]
    exact (Finset.card_le_card hsub).trans (Finset.card_range _).le
  have heq : compress payments = payments :=
    (List.destutter_sublist (· ≠ ·) payments).eq_of_length_le hcard
  exact (List.destutter_eq_self_iff (· ≠ ·) payments).mp heq

/-- **When a block makes its payments by outputs of their own**: when no payment equals the
one before it, or when no block can be valid, for the limit or for the range of amounts. -/
theorem payments_apart_iff (b : CSuperblock) (params : SuperblockParams) {nBlockHeight : ℤ}
    (hh : CSuperblock.isValidBlockHeight params nBlockHeight = true) :
    (∀ txNew blockReward, txNew.isCoinBase = true →
      b.isValid params txNew nBlockHeight blockReward = some true →
      b.PaymentsApart params txNew nBlockHeight blockReward) ↔
    b.vecPayments.IsChain (· ≠ ·) ∨
      CSuperblock.getPaymentsLimit params nBlockHeight < b.getPaymentsTotalAmount ∨
      MAX_MONEY < ((compress b.vecPayments).map (·.nAmount)).sum := by
  constructor
  · intro hall
    by_contra hcond
    rw [not_or, not_or, Int.not_lt, Int.not_lt] at hcond
    obtain ⟨hchain, hlimit, hmax⟩ := hcond
    obtain ⟨script, hfresh⟩ :=
      Infinite.exists_notMem_finset (b.vecPayments.map (·.script)).toFinset
    have hscript : ∀ p ∈ b.vecPayments, p.script ≠ script := by
      intro p hp heq
      exact hfresh (List.mem_toFinset.mpr (List.mem_map.mpr ⟨p, hp, heq⟩))
    obtain ⟨⟨js, hpaid, -⟩, -⟩ := hall _ _ rfl (isValid_merged hh hlimit hmax script)
    exact hchain (isChain_of_paid_merged hscript hpaid)
  · intro hcond txNew blockReward _ hvalid
    obtain ⟨js, hpaid, hmax, hothers⟩ := paymentsLoop_compressed hh hvalid
    have hlimit := ((isValid_iff hh).mp hvalid).2.1
    rcases hcond with hchain | hover | hover
    · -- nothing is repeated, so the payments found are all payments
      have heq : compress b.vecPayments = b.vecPayments :=
        List.destutter_of_isChain (· ≠ ·) _ hchain
      rw [heq] at hpaid hothers
      refine ⟨⟨js, hpaid, ?_⟩, hlimit⟩
      rw [CSuperblock.getPaymentsTotalAmount] at hothers
      omega
    · exact absurd hlimit (Int.not_le.mpr hover)
    · exact absurd hmax (Int.not_le.mpr hover)

def mainParams : SuperblockParams := ⟨92000, 16616, 262800⟩

/-- Two payments of nothing to one script: the limit of the main network is zero. -/
def twicePaid : CSuperblock := ⟨[⟨[0x51], 0, rfl⟩, ⟨[0x51], 0, rfl⟩]⟩

/-- A coinbase with one output for both payments and one for the miner. -/
def onceOutput : CTransaction :=
  ⟨0, 1, [⟨COutPoint.null, [], 0⟩], [CTxOut.of 0 [0x51], CTxOut.of 100000000 [0x52]], 0⟩

theorem payments_apart_iff_main :
    CSuperblock.isValidBlockHeight mainParams 99696 = true ∧
      ((∀ txNew blockReward, txNew.isCoinBase = true →
        (CSuperblock.mk []).isValid mainParams txNew 99696 blockReward = some true →
        (CSuperblock.mk []).PaymentsApart mainParams txNew 99696 blockReward) ↔
      (CSuperblock.mk []).vecPayments.IsChain (· ≠ ·) ∨
        CSuperblock.getPaymentsLimit mainParams 99696 < (CSuperblock.mk []).getPaymentsTotalAmount ∨
        MAX_MONEY < ((compress (CSuperblock.mk []).vecPayments).map (·.nAmount)).sum) :=
  ⟨by decide, payments_apart_iff _ mainParams (by decide)⟩

/-- One output makes both payments. -/
theorem twicePaid_once :
    CSuperblock.isValidBlockHeight mainParams 99696 = true ∧ onceOutput.isCoinBase = true ∧
      twicePaid.isValid mainParams onceOutput 99696 100000000 = some true ∧
      ¬ twicePaid.PaymentsApart mainParams onceOutput 99696 100000000 := by
  refine ⟨by decide, by decide, by decide +kernel, ?_⟩
  rintro ⟨⟨js, hpaid, -⟩, -⟩
  obtain ⟨j, _, -, hrest, rfl⟩ := List.forall₂_cons_left_iff.mp hpaid.made
  obtain ⟨i, _, ⟨o, ho, hmade⟩, -, rfl⟩ := List.forall₂_cons_left_iff.mp hrest
  have hji : j < i := (List.pairwise_cons.mp hpaid.increasing).1 i (by simp)
  have hi : i < 2 := (List.getElem?_eq_some_iff.mp ho).1
  -- the second payment would need an output behind the first, the miner's
  obtain rfl : i = 1 := by omega
  obtain rfl := Option.some.inj ho
  exact absurd hmade (by decide)

end Stonecoin
