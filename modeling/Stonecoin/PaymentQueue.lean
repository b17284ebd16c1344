/-
The masternode that is paid next (`masternodeman.cpp`, `masternode-payments.cpp`).

From the masternodes that pass five filters those that were paid longest ago are taken, a tenth
of the enabled ones, and among these the one with the highest score for a block.  If too few
pass, the filter by age is left out.  The highest score is looked for from 0 on, so masternodes
whose scores are all 0 are not found.

  * `pays_best_iff`: the queue pays the best masternode exactly if there is a score to find.
-/
import Stonecoin.BlockPayees
import Stonecoin.MasternodeRanks

namespace Stonecoin

open Ranking

structure PaidMasternode extends CMasternode where
  nCacheCollateralBlock : ℤ
  nBlockLastPaid : ℤ
  nTimeLastPaid : ℤ
deriving DecidableEq

/-- What the queue is computed from, beside the list of masternodes. -/
structure QueueEnv (H : Type) where
  /-- `GetBlockHash`. -/
  getBlockHash : ℤ → Option UInt256
  /-- `CMasternode::CalculateScore`. -/
  calculateScore : UInt256 → PaidMasternode → UInt256
  /-- `SPORK_14_REQUIRE_SENTINEL_FLAG` is active. -/
  spork14 : Bool
  /-- `mnpayments.GetMinMasternodePaymentsProto`. -/
  minPaymentsProto : ℤ
  mnpayments : CMasternodePayments H
  /-- The script of the collateral key. -/
  scriptOf : CPubKey → CScript
  /-- `mn.sigTime + (nMnCount*2.6*60) > GetAdjustedTime()`, with floating point numbers. -/
  isTooNew : ℤ → ℤ → Bool
  /-- `chainActive.Height()`, if there is a tip. -/
  height : Option ℤ
  getInputAge : CTxIn → ℤ

def CMasternodePayments.isScheduled {H : Type} (m : CMasternodePayments H) (mnpayee : CScript)
    (nNotBlockHeight : ℤ) : Bool :=
  match m.pCurrentBlockIndex with
  | none => false
  | some nHeight =>
    (List.range 9).any fun i =>
      decide (nHeight + i ≠ nNotBlockHeight) && m.getBlockPayee (nHeight + i) = some mnpayee

def compareLastPaidBlock (t1 t2 : ℤ × PaidMasternode) : Bool :=
  if t1.1 ≠ t2.1 then t1.1 < t2.1 else t1.2.vin.lt t2.2.vin

variable {H : Type} (env : QueueEnv H) (vMasternodes : List PaidMasternode) (nBlockHeight : ℤ)

/-- `GetCollateralAge`.  What the source stores in `nCacheCollateralBlock` gives the same age
again. -/
def QueueEnv.getCollateralAge (mn : PaidMasternode) : ℤ :=
  match env.height with
  | none => -1
  | some nHeight =>
    if mn.nCacheCollateralBlock = 0 then env.getInputAge mn.vin
    else nHeight - mn.nCacheCollateralBlock

def QueueEnv.countEnabled : ℕ :=
  vMasternodes.countP fun mn => !(mn.nProtocolVersion < env.minPaymentsProto || !mn.isEnabled)

def QueueEnv.eligible (nMnCount : ℤ) (fFilterSigTime : Bool) (mn : PaidMasternode) : Bool :=
  if !mn.isValidForPayment env.spork14 then false
  else if mn.nProtocolVersion < env.minPaymentsProto then false
  else if env.mnpayments.isScheduled (env.scriptOf mn.pubKeyCollateralAddress) nBlockHeight then
    false
  else if fFilterSigTime && env.isTooNew nMnCount mn.sigTime then false
  else if env.getCollateralAge mn < nMnCount then false
  else true

def vecMasternodeLastPaid (fFilterSigTime : Bool) : List (ℤ × PaidMasternode) :=
  (vMasternodes.filter (env.eligible nBlockHeight (env.countEnabled vMasternodes)
    fFilterSigTime)).map fun mn => (mn.nBlockLastPaid, mn)

def bestLoop (score : PaidMasternode → UInt256) (nTenthNetwork : ℤ) :
    ℤ → UInt256 → Option PaidMasternode → List (ℤ × PaidMasternode) → Option PaidMasternode
  | _, _, pBestMasternode, [] => pBestMasternode
  | nCountTenth, nHighest, pBestMasternode, s :: l =>
    let nScore := score s.2
    let best := if nHighest < nScore then (nScore, some s.2) else (nHighest, pBestMasternode)
    if nTenthNetwork ≤ nCountTenth + 1 then best.2
    else bestLoop score nTenthNetwork (nCountTenth + 1) best.1 best.2 l

/-- `GetNextMasternodeInQueueForPayment`, with the number of calls that may be nested: the
masternode and `nCount`. -/
def getNextMasternodeInQueueForPayment :
    ℕ → Bool → Option (Option PaidMasternode × ℤ)
  | 0, _ => none
  | calls + 1, fFilterSigTime =>
    let nMnCount : ℤ := env.countEnabled vMasternodes
    let lastPaid := vecMasternodeLastPaid env vMasternodes nBlockHeight fFilterSigTime
    let nCount : ℤ := lastPaid.length
    if fFilterSigTime ∧ nCount < nMnCount / 3 then
      getNextMasternodeInQueueForPayment calls false
    else
      match env.getBlockHash (nBlockHeight - 101) with
      | none => some (none, nCount)
      | some blockHash =>
        some (bestLoop (env.calculateScore blockHash) (nMnCount / 10) 0 0 none
          (sortUp compareLastPaidBlock lastPaid), nCount)

/-! ### Statement -/

/-- The filter by age that is used in the end. -/
def QueueEnv.finalFilter (fFilterSigTime : Bool) : Bool :=
  fFilterSigTime && !decide
    (((vecMasternodeLastPaid env vMasternodes nBlockHeight fFilterSigTime).length : ℤ) <
      (env.countEnabled vMasternodes : ℤ) / 3)

/-- A masternode was paid before another one, or has the smaller outpoint. -/
def PaidMasternode.paidBefore (mn mn' : PaidMasternode) : Bool :=
  compareLastPaidBlock (mn.nBlockLastPaid, mn) (mn'.nBlockLastPaid, mn')

/-- A masternode passes the filters, and is one of the tenth that was paid longest ago. -/
def Oldest (fFilterSigTime : Bool) (mn : PaidMasternode) : Prop :=
  mn ∈ vMasternodes ∧
    env.eligible nBlockHeight (env.countEnabled vMasternodes) fFilterSigTime mn = true ∧
    (vMasternodes.countP fun mn' =>
      env.eligible nBlockHeight (env.countEnabled vMasternodes) fFilterSigTime mn' &&
        mn'.paidBefore mn) < max 1 (env.countEnabled vMasternodes / 10)

/-- **The best masternode is paid**: after one nested call at most, whatever the order of the
list, the result is the one of the highest score among the oldest. -/
structure PaysBest (blockHash : UInt256) (fFilterSigTime : Bool) (result : Option PaidMasternode)
    (nCount : ℤ) : Prop where
  once : ∀ calls, getNextMasternodeInQueueForPayment env vMasternodes nBlockHeight (calls + 2)
    fFilterSigTime = some (result, nCount)
  found : (∃ mn ∈ vMasternodes, env.eligible nBlockHeight (env.countEnabled vMasternodes)
    (env.finalFilter vMasternodes nBlockHeight fFilterSigTime) mn = true) → result ≠ none
  best : ∀ mn, result = some mn →
    Oldest env vMasternodes nBlockHeight
        (env.finalFilter vMasternodes nBlockHeight fFilterSigTime) mn ∧
      ∀ mn', Oldest env vMasternodes nBlockHeight
          (env.finalFilter vMasternodes nBlockHeight fFilterSigTime) mn' →
        env.calculateScore blockHash mn' ≤ env.calculateScore blockHash mn
  notScheduled : ∀ mn, result = some mn →
    env.mnpayments.isScheduled (env.scriptOf mn.pubKeyCollateralAddress) nBlockHeight = false
  anyOrder : ∀ vMasternodes', vMasternodes.Perm vMasternodes' → ∀ calls,
    getNextMasternodeInQueueForPayment env vMasternodes' nBlockHeight (calls + 2) fFilterSigTime =
      some (result, nCount)

/-! ### The loop -/

section Loop

variable (score : PaidMasternode → UInt256)

/-- One pass of the loop. -/
def raise (best : UInt256 × Option PaidMasternode) (s : ℤ × PaidMasternode) :
    UInt256 × Option PaidMasternode :=
  if best.1 < score s.2 then (score s.2, some s.2) else best

theorem bestLoop_eq (nTenthNetwork : ℤ) : ∀ (l : List (ℤ × PaidMasternode)) (nCountTenth : ℤ)
    (nHighest : UInt256) (pBestMasternode : Option PaidMasternode),
    bestLoop score nTenthNetwork nCountTenth nHighest pBestMasternode l =
      ((l.take (max 1 (nTenthNetwork - nCountTenth).toNat)).foldl (raise score)
        (nHighest, pBestMasternode)).2
  | [], _, _, _ => by simp [bestLoop]
  | s :: l, nCountTenth, nHighest, pBestMasternode => by
    rw [bestLoop]
    show (if nTenthNetwork ≤ nCountTenth + 1 then (raise score (nHighest, pBestMasternode) s).2
      else bestLoop score nTenthNetwork (nCountTenth + 1)
        (raise score (nHighest, pBestMasternode) s).1
        (raise score (nHighest, pBestMasternode) s).2 l) = _
    by_cases hlast : nTenthNetwork ≤ nCountTenth + 1
    · have hone : max 1 (nTenthNetwork - nCountTenth).toNat = 1 := by omega
      rw [if_pos hlast, hone]
      rfl
    · have hmore : max 1 (nTenthNetwork - nCountTenth).toNat =
          max 1 (nTenthNetwork - (nCountTenth + 1)).toNat + 1 := by omega
      rw [if_neg hlast, bestLoop_eq nTenthNetwork l, hmore]
      rfl

theorem foldl_raise : ∀ (l : List (ℤ × PaidMasternode)) (best : UInt256 × Option PaidMasternode),
    best.1 ≤ (l.foldl (raise score) best).1 ∧
      (∀ s ∈ l, score s.2 ≤ (l.foldl (raise score) best).1) ∧
      (l.foldl (raise score) best = best ∨
        ∃ s ∈ l, l.foldl (raise score) best = (score s.2, some s.2) ∧ best.1 < score s.2)
  | [], best => ⟨BitVec.le_refl _, by simp, .inl rfl⟩
  | s :: l, best => by
    obtain ⟨hgrow, hall, hend⟩ := foldl_raise l (raise score best s)
    have hbest : best.1 ≤ (raise score best s).1 := by
      rw [raise]
      split_ifs with hlt
      · exact BitVec.le_of_lt hlt
      · exact BitVec.le_refl _
    have hs : score s.2 ≤ (raise score best s).1 := by
      rw [raise]
      split_ifs with hlt
      · exact BitVec.le_refl _
      · exact BitVec.not_lt.mp hlt
    rw [List.foldl_cons]
    refine ⟨BitVec.le_trans hbest hgrow,
      List.forall_mem_cons.mpr ⟨BitVec.le_trans hs hgrow, hall⟩, ?_⟩
    rcases hend with hsame | ⟨s', hs', heq, hlt⟩
    · rw [hsame, raise]
      split_ifs with hlt
      · exact .inr ⟨s, List.mem_cons_self, rfl, hlt⟩
      · exact .inl rfl
    · refine .inr ⟨s', List.mem_cons_of_mem s hs', heq, ?_⟩
      rw [BitVec.lt_def] at hlt ⊢
      rw [BitVec.le_def] at hbest
      exact hbest.trans_lt hlt

end Loop

/-! ### The comparison -/

theorem compareLastPaidBlock_compares : Compares compareLastPaidBlock :=
  byNumber_compares Prod.fst fun t : ℤ × PaidMasternode => t.2.vin.prevout

variable {env vMasternodes nBlockHeight} {vMasternodes' : List PaidMasternode}
  {fFilterSigTime : Bool}

theorem mem_lastPaid {s : ℤ × PaidMasternode} :
    s ∈ vecMasternodeLastPaid env vMasternodes nBlockHeight fFilterSigTime ↔
      s.2 ∈ vMasternodes ∧ env.eligible nBlockHeight (env.countEnabled vMasternodes)
        fFilterSigTime s.2 = true ∧ s.1 = s.2.nBlockLastPaid := by
  obtain ⟨n, mn⟩ := s
  rw [vecMasternodeLastPaid, List.mem_map]
  constructor
  · rintro ⟨mn', hmem, heq⟩
    obtain ⟨rfl, rfl⟩ := Prod.mk.inj heq
    exact ⟨(List.mem_filter.mp hmem).1, (List.mem_filter.mp hmem).2, rfl⟩
  · rintro ⟨hmem, hpass, hpaid⟩
    exact ⟨mn, List.mem_filter.mpr ⟨hmem, hpass⟩, congrArg (·, mn) hpaid.symm⟩

theorem lastPaid_perm (hperm : vMasternodes.Perm vMasternodes') :
    (vecMasternodeLastPaid env vMasternodes nBlockHeight fFilterSigTime).Perm
      (vecMasternodeLastPaid env vMasternodes' nBlockHeight fFilterSigTime) := by
  rw [vecMasternodeLastPaid, vecMasternodeLastPaid, QueueEnv.countEnabled, hperm.countP_eq]
  exact (hperm.filter _).map _

section Distinct

variable (hnodup : (vMasternodes.map (·.vin.prevout)).Nodup)
include hnodup

theorem lastPaid_nodup :
    (vecMasternodeLastPaid env vMasternodes nBlockHeight fFilterSigTime).Nodup := by
  rw [vecMasternodeLastPaid]
  exact ((List.Nodup.of_map _ hnodup).filter _).map fun mn mn' heq => (Prod.mk.inj heq).2

theorem lastPaid_apart : ∀ s ∈ vecMasternodeLastPaid env vMasternodes nBlockHeight fFilterSigTime,
    ∀ t ∈ vecMasternodeLastPaid env vMasternodes nBlockHeight fFilterSigTime,
      compareLastPaidBlock s t = false → compareLastPaidBlock t s = false → s = t := by
  intro s hs t ht hst hts
  obtain ⟨hs, -, hpaid⟩ := mem_lastPaid.mp hs
  obtain ⟨ht, -, hpaid'⟩ := mem_lastPaid.mp ht
  have hsame : s.2 = t.2 := List.inj_on_of_nodup_map hnodup hs ht
    (out_of_alike Prod.fst (fun t : ℤ × PaidMasternode => t.2.vin.prevout) hst hts)
  exact Prod.ext (by rw [hpaid, hpaid', hsame]) hsame

theorem mem_take_lastPaid {mn : PaidMasternode} :
    (mn.nBlockLastPaid, mn) ∈ (sortUp compareLastPaidBlock (vecMasternodeLastPaid env vMasternodes
        nBlockHeight fFilterSigTime)).take (max 1 (env.countEnabled vMasternodes / 10)) ↔
      Oldest env vMasternodes nBlockHeight fFilterSigTime mn := by
  rw [mem_take_sortUp compareLastPaidBlock_compares _ (lastPaid_nodup hnodup)
    (lastPaid_apart hnodup), mem_lastPaid, Oldest, vecMasternodeLastPaid, List.countP_map,
    List.countP_filter]
  simp only [and_true, and_assoc]
  refine and_congr_right fun _ => and_congr_right fun _ => ?_
  rw [show (fun mn' => ((fun s => compareLastPaidBlock s (mn.nBlockLastPaid, mn)) ∘
      fun mn : PaidMasternode => (mn.nBlockLastPaid, mn)) mn' && env.eligible nBlockHeight
        (env.countEnabled vMasternodes) fFilterSigTime mn') =
    fun mn' => env.eligible nBlockHeight (env.countEnabled vMasternodes) fFilterSigTime mn' &&
      mn'.paidBefore mn from funext fun mn' => Bool.and_comm _ _]

variable (env vMasternodes nBlockHeight) in
/-- What the loop finds in the sorted queue. -/
def queueBest (blockHash : UInt256) (fFilterSigTime : Bool) : Option PaidMasternode :=
  bestLoop (env.calculateScore blockHash) ((env.countEnabled vMasternodes : ℤ) / 10) 0 0 none
    (sortUp compareLastPaidBlock
      (vecMasternodeLastPaid env vMasternodes nBlockHeight fFilterSigTime))

theorem queueBest_spec (blockHash : UInt256) :
    queueBest env vMasternodes nBlockHeight blockHash fFilterSigTime = none ∧
        (∀ mn, Oldest env vMasternodes nBlockHeight fFilterSigTime mn →
          env.calculateScore blockHash mn = 0) ∨
      ∃ mn, queueBest env vMasternodes nBlockHeight blockHash fFilterSigTime = some mn ∧
        Oldest env vMasternodes nBlockHeight fFilterSigTime mn ∧
        env.calculateScore blockHash mn ≠ 0 ∧
        ∀ mn', Oldest env vMasternodes nBlockHeight fFilterSigTime mn' →
          env.calculateScore blockHash mn' ≤ env.calculateScore blockHash mn := by
  have htenth : max 1 ((env.countEnabled vMasternodes : ℤ) / 10 - 0).toNat =
      max 1 (env.countEnabled vMasternodes / 10) := by omega
  rw [queueBest, bestLoop_eq, htenth]
  have htake : ∀ mn, _ ↔ Oldest env vMasternodes nBlockHeight fFilterSigTime mn :=
    fun mn => mem_take_lastPaid hnodup
  generalize hl : (sortUp compareLastPaidBlock (vecMasternodeLastPaid env vMasternodes
    nBlockHeight fFilterSigTime)).take (max 1 (env.countEnabled vMasternodes / 10)) = l at htake
  obtain ⟨-, hall, hend⟩ := foldl_raise (env.calculateScore blockHash) l (0, none)
  rcases hend with hnone | ⟨s, hs, hfound, hpos⟩
  · refine .inl ⟨congrArg Prod.snd hnone, fun mn hmn => ?_⟩
    have hle := hall _ ((htake mn).mpr hmn)
    rw [hnone] at hle
    exact BitVec.le_zero_iff.mp hle
  · have hentry : s = (s.2.nBlockLastPaid, s.2) := by
      subst hl
      obtain ⟨-, -, hpaid⟩ := mem_lastPaid.mp
        ((sortUp_perm _ _).mem_iff.mp (List.mem_of_mem_take hs))
      exact Prod.ext hpaid rfl
    refine .inr ⟨s.2, congrArg Prod.snd hfound, (htake s.2).mp (hentry ▸ hs), ?_, fun mn hmn => ?_⟩
    · rintro heq
      rw [heq] at hpos
      exact absurd hpos (BitVec.lt_irrefl _)
    · have hle := hall _ ((htake mn).mpr hmn)
      rwa [hfound] at hle

theorem queueBest_perm (hperm : vMasternodes.Perm vMasternodes') (blockHash : UInt256) :
    queueBest env vMasternodes' nBlockHeight blockHash fFilterSigTime =
      queueBest env vMasternodes nBlockHeight blockHash fFilterSigTime := by
  have hsort : sortUp compareLastPaidBlock
        (vecMasternodeLastPaid env vMasternodes nBlockHeight fFilterSigTime) =
      sortUp compareLastPaidBlock
        (vecMasternodeLastPaid env vMasternodes' nBlockHeight fFilterSigTime) :=
    sortUp_congr compareLastPaidBlock_compares (lastPaid_apart hnodup) (lastPaid_perm hperm)
  rw [queueBest, queueBest, ← hsort, QueueEnv.countEnabled, QueueEnv.countEnabled, hperm.countP_eq]

end Distinct

/-! ### The calls -/

theorem finalFilter_perm (hperm : vMasternodes.Perm vMasternodes') :
    env.finalFilter vMasternodes' nBlockHeight fFilterSigTime =
      env.finalFilter vMasternodes nBlockHeight fFilterSigTime := by
  rw [QueueEnv.finalFilter, QueueEnv.finalFilter, (lastPaid_perm hperm).length_eq,
    QueueEnv.countEnabled, QueueEnv.countEnabled, hperm.countP_eq]

theorem getNext_eq {blockHash : UInt256}
    (hknown : env.getBlockHash (nBlockHeight - 101) = some blockHash) (calls : ℕ)
    (fFilterSigTime : Bool) :
    getNextMasternodeInQueueForPayment env vMasternodes nBlockHeight (calls + 2) fFilterSigTime =
      some (queueBest env vMasternodes nBlockHeight blockHash
          (env.finalFilter vMasternodes nBlockHeight fFilterSigTime),
        ((vecMasternodeLastPaid env vMasternodes nBlockHeight
          (env.finalFilter vMasternodes nBlockHeight fFilterSigTime)).length : ℤ)) := by
  have hlast : ∀ (calls : ℕ) (f : Bool), env.finalFilter vMasternodes nBlockHeight f = f →
      getNextMasternodeInQueueForPayment env vMasternodes nBlockHeight (calls + 1) f =
        some (queueBest env vMasternodes nBlockHeight blockHash f,
          ((vecMasternodeLastPaid env vMasternodes nBlockHeight f).length : ℤ)) := by
    intro calls f hf
    rw [getNextMasternodeInQueueForPayment]
    have henough : ¬ (f = true ∧
        ((vecMasternodeLastPaid env vMasternodes nBlockHeight f).length : ℤ) <
          (env.countEnabled vMasternodes : ℤ) / 3) := by
      rintro ⟨rfl, hfew⟩
      rw [QueueEnv.finalFilter, decide_eq_true hfew] at hf
      exact absurd hf (by decide)
    rw [if_neg henough, hknown]
    rfl
  cases hf : env.finalFilter vMasternodes nBlockHeight fFilterSigTime with
  | true =>
    cases fFilterSigTime with
    | true => exact hlast (calls + 1) true hf
    | false => exact absurd hf (by simp [QueueEnv.finalFilter])
  | false =>
    cases fFilterSigTime with
    | false => exact hlast (calls + 1) false hf
    | true =>
      rw [getNextMasternodeInQueueForPayment]
      have hfew : ((vecMasternodeLastPaid env vMasternodes nBlockHeight true).length : ℤ) <
          (env.countEnabled vMasternodes : ℤ) / 3 := by
        simpa [QueueEnv.finalFilter] using hf
      rw [if_pos ⟨rfl, hfew⟩]
      exact hlast calls false (by simp [QueueEnv.finalFilter])

theorem notScheduled_of_eligible {nMnCount : ℤ} {mn : PaidMasternode}
    (h : env.eligible nBlockHeight nMnCount fFilterSigTime mn = true) :
    env.mnpayments.isScheduled (env.scriptOf mn.pubKeyCollateralAddress) nBlockHeight = false := by
  rw [QueueEnv.eligible] at h
  split_ifs at h with hvalid hproto hscheduled
  exact Bool.eq_false_iff.mpr hscheduled

/-- **When the best masternode is paid**: if no masternode passes the filters, or if one of the
oldest that do has a score. -/
theorem pays_best_iff (hnodup : (vMasternodes.map (·.vin.prevout)).Nodup) {blockHash : UInt256}
    (hknown : env.getBlockHash (nBlockHeight - 101) = some blockHash) (fFilterSigTime : Bool) :
    (∃ result nCount, PaysBest env vMasternodes nBlockHeight blockHash fFilterSigTime result
        nCount) ↔
      (∀ mn ∈ vMasternodes, env.eligible nBlockHeight (env.countEnabled vMasternodes)
        (env.finalFilter vMasternodes nBlockHeight fFilterSigTime) mn = false) ∨
      ∃ mn, Oldest env vMasternodes nBlockHeight
          (env.finalFilter vMasternodes nBlockHeight fFilterSigTime) mn ∧
        env.calculateScore blockHash mn ≠ 0 := by
  have hbest : queueBest env vMasternodes nBlockHeight blockHash
      (env.finalFilter vMasternodes nBlockHeight fFilterSigTime) = none ∧ _ ∨ _ :=
    queueBest_spec hnodup blockHash
  have hnext : ∀ calls, getNextMasternodeInQueueForPayment env vMasternodes nBlockHeight
      (calls + 2) fFilterSigTime = _ := fun calls => getNext_eq hknown calls fFilterSigTime
  constructor
  · rintro ⟨result, nCount, h⟩
    have hresult := (h.once 0).symm.trans (hnext 0)
    obtain ⟨rfl, -⟩ := Prod.mk.inj (Option.some.inj hresult)
    rcases hbest with ⟨hnone, -⟩ | ⟨mn, -, hold, hscore, -⟩
    · refine .inl fun mn hmn => ?_
      by_contra hpass
      exact h.found ⟨mn, hmn, by simpa using hpass⟩ hnone
    · exact .inr ⟨mn, hold, hscore⟩
  · intro hcond
    refine ⟨_, _, hnext, ?_, ?_, ?_, ?_⟩
    · rintro ⟨mn, hmn, hpass⟩ hnone
      rcases hcond with hempty | ⟨mn', hold, hscore⟩
      · exact absurd (hpass.symm.trans (hempty mn hmn)) (by decide)
      · rcases hbest with ⟨-, hzero⟩ | ⟨mn'', hsome, -⟩
        · exact hscore (hzero mn' hold)
        · exact absurd (hnone.symm.trans hsome) (by simp)
    · intro mn hmn
      rcases hbest with ⟨hnone, -⟩ | ⟨mn', hsome, hold, -, hmax⟩
      · exact absurd (hnone.symm.trans hmn) (by simp)
      · obtain rfl := Option.some.inj (hsome.symm.trans hmn)
        exact ⟨hold, hmax⟩
    · intro mn hmn
      rcases hbest with ⟨hnone, -⟩ | ⟨mn', hsome, hold, -⟩
      · exact absurd (hnone.symm.trans hmn) (by simp)
      · obtain rfl := Option.some.inj (hsome.symm.trans hmn)
        exact notScheduled_of_eligible hold.2.1
    · intro vMasternodes' hperm calls
      rw [getNext_eq hknown, finalFilter_perm hperm, queueBest_perm hnodup hperm,
        (lastPaid_perm hperm).length_eq]

/-- The chain has the height 1000, and every masternode has the same score. -/
def queueEnv (score : UInt256) : QueueEnv ℕ where
  getBlockHash := fun nBlockHeight => if nBlockHeight = 900 then some 7 else none
  calculateScore := fun _ _ => score
  spork14 := true
  minPaymentsProto := 70206
  mnpayments := ⟨some 1000, ∅, ∅, ∅⟩
  scriptOf := fun key => key
  isTooNew := fun _ _ => false
  height := some 1000
  getInputAge := fun _ => 100

def neverPaid : PaidMasternode := ⟨masternodeAt 1 .MASTERNODE_ENABLED, 0, 0, 0⟩

theorem pays_best_iff_one : ([neverPaid].map (·.vin.prevout)).Nodup ∧
    (queueEnv 1).getBlockHash (1001 - 101) = some 7 ∧
    getNextMasternodeInQueueForPayment (queueEnv 1) [neverPaid] 1001 2 true =
      some (some neverPaid, 1) ∧
    ((∃ result nCount, PaysBest (queueEnv 1) [neverPaid] 1001 7 true result nCount) ↔
      (∀ mn ∈ [neverPaid], (queueEnv 1).eligible 1001 ((queueEnv 1).countEnabled [neverPaid])
        ((queueEnv 1).finalFilter [neverPaid] 1001 true) mn = false) ∨
      ∃ mn, Oldest (queueEnv 1) [neverPaid] 1001
          ((queueEnv 1).finalFilter [neverPaid] 1001 true) mn ∧
        (queueEnv 1).calculateScore 7 mn ≠ 0) :=
  ⟨by decide, by decide, by decide +kernel,
    pays_best_iff (by decide) (show (queueEnv 1).getBlockHash (1001 - 101) = some 7 by decide) true⟩

/-- **Nobody is paid**, although a masternode passes the filters: its score is 0. -/
theorem nobody_paid : ([neverPaid].map (·.vin.prevout)).Nodup ∧
    (queueEnv 0).getBlockHash (1001 - 101) = some 7 ∧
    (queueEnv 0).eligible 1001 ((queueEnv 0).countEnabled [neverPaid])
      ((queueEnv 0).finalFilter [neverPaid] 1001 true) neverPaid = true ∧
    getNextMasternodeInQueueForPayment (queueEnv 0) [neverPaid] 1001 2 true = some (none, 1) ∧
    ¬ ∃ result nCount, PaysBest (queueEnv 0) [neverPaid] 1001 7 true result nCount := by
  have hpass : (queueEnv 0).eligible 1001 ((queueEnv 0).countEnabled [neverPaid])
      ((queueEnv 0).finalFilter [neverPaid] 1001 true) neverPaid = true := by decide +kernel
  have hnone : getNextMasternodeInQueueForPayment (queueEnv 0) [neverPaid] 1001 2 true =
      some (none, 1) := by decide +kernel
  refine ⟨by decide, by decide, hpass, hnone, ?_⟩
  rintro ⟨result, nCount, h⟩
  obtain ⟨rfl, -⟩ := Prod.mk.inj (Option.some.inj ((h.once 0).symm.trans hnone))
  exact h.found ⟨neverPaid, List.mem_singleton_self _, hpass⟩ rfl

end Stonecoin
