/-
The payees of a block: `FillBlockPayments` and `FillFounderPayment` give shares of the
coinbase away, `IsBlockPayeeValid` and the class `FounderPayment` look for them.

Superblocks are parameters.  Of a coinbase that is being built only the outputs matter.
`blockValue/1.1` is the share rounded down.

The builder pays the payee with most votes its share of the reward; the validator takes the
reward from the outputs and accepts every payee with six votes (`fillCoinbase_payee`).  No
founder output is made for an amount of zero, but one is looked for
(`coinbase_passes_iff`).
-/
import Stonecoin.FounderPayment
import Stonecoin.PaymentVoteRuns

namespace Stonecoin

def getMasternodePayment (founderStartHeight nHeight blockValue : ℤ) : ℤ :=
  let ret := blockValue.tdiv 100
  if nHeight = POST_MINE_HEIGHT then (blockValue - POST_MINE_VALUE * COIN).tdiv 10
  else
    let ret := if 2500 < nHeight then (blockValue * 2).tdiv 5 else ret
    let ret := if 25000 < nHeight then ret + blockValue.tdiv 10 else ret
    let ret := if 50000 < nHeight then ret + blockValue.tdiv 10 else ret
    if founderStartHeight ≤ nHeight then (10 * blockValue).tdiv 11 else ret

variable {H : Type}

/-! ### The votes for a block -/

namespace CMasternodeBlockPayees

def bestPayeeLoop : ℤ → CScript → List (CMasternodePayee H) → CScript
  | _, payeeRet, [] => payeeRet
  | nVotes, payeeRet, p :: ps =>
    if nVotes < p.getVoteCount then bestPayeeLoop p.getVoteCount p.scriptPubKey ps
    else bestPayeeLoop nVotes payeeRet ps

def getBestPayee (b : CMasternodeBlockPayees H) : Option CScript :=
  if b.vecPayees.isEmpty then none else some (bestPayeeLoop (-1) [] b.vecPayees)

def maxSignatures (b : CMasternodeBlockPayees H) : ℕ :=
  b.vecPayees.foldl (fun nMaxSignatures p =>
    if nMaxSignatures ≤ p.getVoteCount then p.getVoteCount else nMaxSignatures) 0

/-- `CMasternodeBlockPayees::IsTransactionValid`; `none` is the exception of `GetValueOut`. -/
def isTransactionValid (b : CMasternodeBlockPayees H) (founderStartHeight : ℤ)
    (txNew : CTransaction) : Option Bool :=
  match txNew.getValueOut with
  | none => none
  | some nValueOut =>
    let nMasternodePayment := getMasternodePayment founderStartHeight b.nBlockHeight nValueOut
    -- without enough votes for a payee the longest chain decides
    if b.maxSignatures < MNPAYMENTS_SIGNATURES_REQUIRED then some true
    else some <| b.vecPayees.any fun p =>
      decide (MNPAYMENTS_SIGNATURES_REQUIRED ≤ p.getVoteCount) && txNew.vout.any fun txout =>
        p.scriptPubKey = txout.scriptPubKey ∧ nMasternodePayment = txout.nValue

end CMasternodeBlockPayees

namespace CMasternodePayments

def getBlockPayee (m : CMasternodePayments H) (nBlockHeight : ℤ) : Option CScript :=
  (m.mapMasternodeBlocks.lookup nBlockHeight).bind (·.getBestPayee)

def isTransactionValid (m : CMasternodePayments H) (founderStartHeight : ℤ)
    (txNew : CTransaction) (nBlockHeight : ℤ) : Option Bool :=
  match m.mapMasternodeBlocks.lookup nBlockHeight with
  | none => some true
  | some b => b.isTransactionValid founderStartHeight txNew

/-- The payees of a block know its height. -/
def Keyed (m : CMasternodePayments H) : Prop :=
  ∀ nBlockHeight b, m.mapMasternodeBlocks.lookup nBlockHeight = some b →
    b.nBlockHeight = nBlockHeight

end CMasternodePayments

/-! ### The coinbase -/

/-- What the two sides ask the rest of the node, and the parameters of the chain. -/
structure PayeeEnv where
  isSynced : Bool
  /-- `SPORK_8_MASTERNODE_PAYMENT_ENFORCEMENT`, -/
  spork8 : Bool
  /-- `SPORK_9_SUPERBLOCKS_ENABLED` and -/
  spork9 : Bool
  /-- `SPORK_13_OLD_SUPERBLOCK_FLAG` are active. -/
  spork13 : Bool
  nSuperblockStartBlock : ℤ
  nBudgetPaymentsStartBlock : ℤ
  nBudgetPaymentsCycleBlocks : ℤ
  nBudgetPaymentsWindowBlocks : ℤ
  isSuperblockTriggered : ℤ → Bool
  createSuperblock : List CTxOut → ℤ → List CTxOut
  superblockIsValid : CTransaction → ℤ → ℤ → Bool
  /-- The script of `mnodeman.GetNextMasternodeInQueueForPayment`. -/
  getNextMasternodeInQueueForPayment : ℤ → Option CScript
  founderAddress1 : CTxDestination
  founderAddress2 : CTxDestination

namespace PayeeEnv

variable (env : PayeeEnv)

def founderPayment : FounderPayment := .of env.founderAddress1 env.founderAddress2

/-- The payee that `FillBlockPayee` takes: the best of the votes, or the local winner. -/
def blockPayee (m : CMasternodePayments H) (nBlockHeight : ℤ) : Option CScript :=
  match m.getBlockPayee nBlockHeight with
  | some payee => some payee
  | none => env.getNextMasternodeInQueueForPayment nBlockHeight

/-- An amount is taken from the first output and paid by a new one. -/
def splitOff (vout : List CTxOut) (amount : ℤ) (payee : CScript) : List CTxOut :=
  vout.modifyHead (fun o => { o with nValue := o.nValue - amount }) ++ [CTxOut.of amount payee]

def fillBlockPayee (m : CMasternodePayments H) (vout : List CTxOut)
    (nBlockHeight blockReward : ℤ) : List CTxOut :=
  match env.blockPayee m nBlockHeight with
  | none => vout
  | some payee =>
    splitOff vout (getMasternodePayment env.founderPayment.founderStartHeight nBlockHeight
      blockReward) payee

def fillBlockPayments (m : CMasternodePayments H) (vout : List CTxOut)
    (nBlockHeight blockReward : ℤ) : List CTxOut :=
  if env.spork9 && env.isSuperblockTriggered nBlockHeight then
    env.createSuperblock vout nBlockHeight
  else env.fillBlockPayee m vout nBlockHeight blockReward

def fillFounderPayment (vout : List CTxOut) (nBlockHeight blockReward : ℤ) : List CTxOut :=
  let founderPayment := env.founderPayment.getFounderPaymentAmount nBlockHeight blockReward
  if founderPayment = 0 then vout
  else
    splitOff vout founderPayment
      (getScriptForDestination (env.founderPayment.getCurrentFounderAddress nBlockHeight))

/-- The outputs that a miner gives its coinbase. -/
def fillCoinbase (m : CMasternodePayments H) (scriptPubKeyIn : CScript)
    (nBlockHeight blockReward : ℤ) : List CTxOut :=
  env.fillFounderPayment
    (env.fillBlockPayments m [CTxOut.of blockReward scriptPubKeyIn] nBlockHeight blockReward)
    nBlockHeight blockReward

/-- `IsBlockPayeeValid`; `none` is the exception of `GetValueOut`. -/
def isBlockPayeeValid (m : CMasternodePayments H) (txNew : CTransaction)
    (nBlockHeight blockReward : ℤ) : Option Bool :=
  if !env.isSynced then some true
  else if nBlockHeight < env.nSuperblockStartBlock then
    match m.isTransactionValid env.founderPayment.founderStartHeight txNew nBlockHeight with
    | none => none
    | some true => some true
    | some false =>
      let nOffset := nBlockHeight.tmod env.nBudgetPaymentsCycleBlocks
      if env.nBudgetPaymentsStartBlock ≤ nBlockHeight ∧
          nOffset < env.nBudgetPaymentsWindowBlocks then
        if !env.spork13 then some false else some true
      else if env.spork8 then some false
      else some true
  else if env.spork9 && env.isSuperblockTriggered nBlockHeight then
    some (env.superblockIsValid txNew nBlockHeight blockReward)
  else
    match m.isTransactionValid env.founderPayment.founderStartHeight txNew nBlockHeight with
    | none => none
    | some true => some true
    | some false => if env.spork8 then some false else some true

end PayeeEnv

/-! ### The shares -/

theorem shares_le (fp : FounderPayment) {nHeight R : ℤ} (hh : POST_MINE_HEIGHT < nHeight)
    (hR : 0 ≤ R) :
    0 ≤ getMasternodePayment fp.founderStartHeight nHeight R ∧
      0 ≤ fp.getFounderPaymentAmount nHeight R ∧
      getMasternodePayment fp.founderStartHeight nHeight R
        + fp.getFounderPaymentAmount nHeight R ≤ R := by
  unfold POST_MINE_HEIGHT at hh
  have hpost : nHeight ≠ POST_MINE_HEIGHT := by unfold POST_MINE_HEIGHT; omega
  unfold getMasternodePayment FounderPayment.getFounderPaymentAmount
  dsimp only
  rw [if_neg hpost, if_pos (show 2500 < nHeight by omega), if_pos (show 25000 < nHeight by omega),
    if_pos (show 50000 < nHeight by omega), Int.tdiv_eq_ediv_of_nonneg (a := R * 2) (by omega),
    Int.tdiv_eq_ediv_of_nonneg hR, Int.tdiv_eq_ediv_of_nonneg (a := 10 * R) (by omega),
    Int.tdiv_eq_ediv_of_nonneg hR]
  rcases Int.lt_or_le nHeight fp.founderStartHeight with hlt | hge
  · rw [if_neg (by omega), if_pos hlt]
    omega
  · rw [if_pos hge, if_neg (by omega)]
    omega

theorem getValueOutLoop_eq : ∀ {os : List CTxOut} {acc : ℤ}, (∀ o ∈ os, 0 ≤ o.nValue) → 0 ≤ acc →
    acc ≤ MAX_MONEY → getValueOutLoop acc os =
      if acc + (os.map (·.nValue)).sum ≤ MAX_MONEY then some (acc + (os.map (·.nValue)).sum)
      else none
  | [], acc, _, _, hmax => by simp [getValueOutLoop, hmax]
  | o :: os, acc, hos, hacc, hmax => by
    have ho := hos o (by simp)
    have hos' : ∀ o ∈ os, 0 ≤ o.nValue := fun o ho => hos o (List.mem_cons_of_mem _ ho)
    have hsum : 0 ≤ (os.map (·.nValue)).sum :=
      List.sum_nonneg fun v hv => by
        obtain ⟨o, ho, rfl⟩ := List.mem_map.mp hv
        exact hos' o ho
    rw [List.map_cons, List.sum_cons, ← Int.add_assoc]
    rcases Int.lt_or_le MAX_MONEY (acc + o.nValue) with hlt | hle
    · have hout : moneyRange (acc + o.nValue) = false := by
        rw [Bool.eq_false_iff, Ne, moneyRange_iff]
        omega
      rw [getValueOutLoop, hout, if_pos (by simp), if_neg (by omega)]
    · have hin : moneyRange o.nValue = true := moneyRange_iff.mpr (by omega)
      have hin' : moneyRange (acc + o.nValue) = true := moneyRange_iff.mpr (by omega)
      rw [getValueOutLoop, hin, hin', if_neg (by simp)]
      exact getValueOutLoop_eq hos' (by omega) hle

/-! ### The best payee -/

namespace CMasternodeBlockPayees

theorem bestPayeeLoop_spec : ∀ (ps : List (CMasternodePayee H)) (nVotes : ℤ) (payeeRet : CScript),
    ((∀ q ∈ ps, (q.getVoteCount : ℤ) ≤ nVotes) ∧ bestPayeeLoop nVotes payeeRet ps = payeeRet) ∨
      ∃ p ∈ ps, bestPayeeLoop nVotes payeeRet ps = p.scriptPubKey ∧ nVotes < p.getVoteCount ∧
        ∀ q ∈ ps, q.getVoteCount ≤ p.getVoteCount
  | [], nVotes, payeeRet => .inl ⟨fun q hq => absurd hq List.not_mem_nil, rfl⟩
  | p :: ps, nVotes, payeeRet => by
    rcases Int.lt_or_le nVotes p.getVoteCount with hlt | hle
    · rw [bestPayeeLoop, if_pos hlt]
      right
      rcases bestPayeeLoop_spec ps p.getVoteCount p.scriptPubKey
        with ⟨hall, he⟩ | ⟨q, hq, he, hq', hall⟩
      · refine ⟨p, by simp, he, hlt, fun q hq => ?_⟩
        rcases List.mem_cons.mp hq with rfl | hq
        · exact Nat.le_refl _
        · exact Int.ofNat_le.mp (hall q hq)
      · refine ⟨q, List.mem_cons_of_mem _ hq, he, by omega, fun r hr => ?_⟩
        rcases List.mem_cons.mp hr with rfl | hr
        · omega
        · exact hall r hr
    · rw [bestPayeeLoop, if_neg (by omega)]
      rcases bestPayeeLoop_spec ps nVotes payeeRet
        with ⟨hall, he⟩ | ⟨q, hq, he, hq', hall⟩
      · refine .inl ⟨fun q hq => ?_, he⟩
        rcases List.mem_cons.mp hq with rfl | hq
        · exact hle
        · exact hall q hq
      · refine .inr ⟨q, List.mem_cons_of_mem _ hq, he, hq', fun r hr => ?_⟩
        rcases List.mem_cons.mp hr with rfl | hr
        · omega
        · exact hall r hr

theorem getBestPayee_spec {b : CMasternodeBlockPayees H} (hne : b.vecPayees ≠ []) :
    ∃ p ∈ b.vecPayees, b.getBestPayee = some p.scriptPubKey ∧
      ∀ q ∈ b.vecPayees, q.getVoteCount ≤ p.getVoteCount := by
  have hempty : b.vecPayees.isEmpty = false := by simpa using hne
  rcases bestPayeeLoop_spec b.vecPayees (-1) []
    with ⟨hall, -⟩ | ⟨p, hp, he, -, hall⟩
  · obtain ⟨p, hp⟩ := List.exists_mem_of_ne_nil _ hne
    have hneg := hall p hp
    omega
  · exact ⟨p, hp, by rw [getBestPayee, hempty, ← he]; rfl, hall⟩

theorem maxSignatures_le {b : CMasternodeBlockPayees H} {n : ℕ}
    (h : ∀ p ∈ b.vecPayees, p.getVoteCount ≤ n) : b.maxSignatures ≤ n := by
  have hfold : ∀ (ps : List (CMasternodePayee H)) (k : ℕ), k ≤ n →
      (∀ p ∈ ps, p.getVoteCount ≤ n) →
      ps.foldl (fun nMaxSignatures p =>
        if nMaxSignatures ≤ p.getVoteCount then p.getVoteCount else nMaxSignatures) k ≤ n := by
    intro ps
    induction ps with
    | nil => exact fun k hk _ => hk
    | cons p ps ih =>
      intro k hk hps
      apply ih
      · show (if k ≤ p.getVoteCount then p.getVoteCount else k) ≤ n
        split_ifs
        · exact hps p (by simp)
        · exact hk
      · exact fun q hq => hps q (List.mem_cons_of_mem _ hq)
  exact hfold _ 0 (Nat.zero_le n) h

/-- **The builder's payee is accepted**, when it is paid what is due at the height of the
votes. -/
theorem isTransactionValid_of_paid {b : CMasternodeBlockPayees H} {founderStartHeight v : ℤ}
    {tx : CTransaction} (hv : tx.getValueOut = some v)
    (hpaid : ∀ payee, b.getBestPayee = some payee → ∃ o ∈ tx.vout, o.scriptPubKey = payee ∧
      o.nValue = getMasternodePayment founderStartHeight b.nBlockHeight v) :
    b.isTransactionValid founderStartHeight tx = some true := by
  unfold isTransactionValid
  rw [hv]
  dsimp only
  split_ifs with hfew
  · rfl
  · have hne : b.vecPayees ≠ [] := by
      intro hnil
      apply hfew
      rw [maxSignatures, hnil]
      exact Nat.zero_lt_succ 5
    obtain ⟨p, hp, hbest, hall⟩ := getBestPayee_spec hne
    obtain ⟨o, ho, hscript, hvalue⟩ := hpaid _ hbest
    have hsix : MNPAYMENTS_SIGNATURES_REQUIRED ≤ p.getVoteCount :=
      (Nat.not_lt.mp hfew).trans (maxSignatures_le hall)
    refine congrArg some (List.any_eq_true.mpr ⟨p, hp, ?_⟩)
    rw [Bool.and_eq_true, List.any_eq_true]
    exact ⟨by simpa using hsix, o, ho, by simp [hscript, hvalue]⟩

end CMasternodeBlockPayees

/-! ### The coinbase is accepted -/

namespace PayeeEnv

open CMasternodePayments

variable {env : PayeeEnv} {m : CMasternodePayments H} {scriptPubKeyIn : CScript} {nHeight R : ℤ}

/-- What is paid besides the miner. -/
def payouts (env : PayeeEnv) (m : CMasternodePayments H) (nHeight R : ℤ) : List CTxOut :=
  (env.blockPayee m nHeight).toList.map
      (CTxOut.of (getMasternodePayment env.founderPayment.founderStartHeight nHeight R)) ++
    if env.founderPayment.getFounderPaymentAmount nHeight R = 0 then []
    else [CTxOut.of (env.founderPayment.getFounderPaymentAmount nHeight R)
      (getScriptForDestination (env.founderPayment.getCurrentFounderAddress nHeight))]

theorem fillCoinbase_eq (hsb : (env.spork9 && env.isSuperblockTriggered nHeight) = false) :
    env.fillCoinbase m scriptPubKeyIn nHeight R =
      CTxOut.of (R - ((env.payouts m nHeight R).map (·.nValue)).sum) scriptPubKeyIn
        :: env.payouts m nHeight R := by
  unfold fillCoinbase fillBlockPayments fillBlockPayee fillFounderPayment payouts
  rw [hsb, if_neg Bool.false_ne_true]
  dsimp only
  cases hpay : env.blockPayee m nHeight with
  | none =>
    split_ifs with hzero
    · simp
    · simp [splitOff, CTxOut.of]
  | some payee =>
    split_ifs with hzero
    · simp [splitOff, CTxOut.of]
    · simp [splitOff, CTxOut.of]
      omega

theorem payouts_spec (hh : POST_MINE_HEIGHT < nHeight) (hR : 0 ≤ R) :
    (∀ o ∈ env.payouts m nHeight R, 0 ≤ o.nValue) ∧
      ((env.payouts m nHeight R).map (·.nValue)).sum ≤ R := by
  obtain ⟨hP, hF, hsum⟩ := shares_le env.founderPayment hh hR
  unfold payouts
  cases hpay : env.blockPayee m nHeight with
  | none =>
    split_ifs with hzero
    · simpa using hR
    · simp [CTxOut.of]
      omega
  | some payee =>
    split_ifs with hzero
    · simp [CTxOut.of]
      omega
    · simp [CTxOut.of]
      omega

/-- The coinbase that a node builds passes its own rules: its outputs are not negative and
add up to the reward, and both validators accept it, that for the founder with every part of
the reward where it is asked. -/
structure PassesOwnRules (env : PayeeEnv) (m : CMasternodePayments H) (nHeight R : ℤ)
    (tx : CTransaction) : Prop where
  nonneg : ∀ o ∈ tx.vout, 0 ≤ o.nValue
  sum : (tx.vout.map (·.nValue)).sum = R
  payee : env.isBlockPayeeValid m tx nHeight R = some true
  founder : FOUNDER_START_BLOCK < nHeight → ∀ s ≤ R,
    env.founderPayment.isBlockPayeeValid tx nHeight s = true

theorem isBlockPayeeValid_of_valid {tx : CTransaction}
    (hsb : (env.spork9 && env.isSuperblockTriggered nHeight) = false)
    (h : env.isSynced = true →
      m.isTransactionValid env.founderPayment.founderStartHeight tx nHeight = some true) :
    env.isBlockPayeeValid m tx nHeight R = some true := by
  unfold isBlockPayeeValid
  cases hsync : env.isSynced with
  | false => rfl
  | true => simp [hsb, h hsync]

theorem isBlockPayeeValid_of_throw {tx : CTransaction}
    (hsb : (env.spork9 && env.isSuperblockTriggered nHeight) = false)
    (hsync : env.isSynced = true)
    (h : m.isTransactionValid env.founderPayment.founderStartHeight tx nHeight = none) :
    env.isBlockPayeeValid m tx nHeight R = none := by
  unfold isBlockPayeeValid
  simp [hsync, hsb, h]

section Built

variable {tx : CTransaction} (hh : POST_MINE_HEIGHT < nHeight) (hR : 0 ≤ R)
  (hsb : (env.spork9 && env.isSuperblockTriggered nHeight) = false)
  (htx : tx.vout = env.fillCoinbase m scriptPubKeyIn nHeight R)

include hh hR hsb htx

theorem vout_nonneg : ∀ o ∈ tx.vout, 0 ≤ o.nValue := by
  obtain ⟨hnonneg, hsum⟩ := env.payouts_spec (m := m) hh hR
  rw [htx, fillCoinbase_eq hsb]
  intro o ho
  rcases List.mem_cons.mp ho with rfl | ho
  · exact Int.sub_nonneg.mpr hsum
  · exact hnonneg o ho

omit hh hR in
theorem vout_sum : (tx.vout.map (·.nValue)).sum = R := by
  rw [htx, fillCoinbase_eq hsb, List.map_cons, List.sum_cons]
  exact Int.sub_add_cancel _ _

theorem getValueOut_eq : tx.getValueOut = if R ≤ MAX_MONEY then some R else none := by
  rw [CTransaction.getValueOut, getValueOutLoop_eq (vout_nonneg hh hR hsb htx) (Int.le_refl 0)
    (by decide), vout_sum hsb htx, Int.zero_add]

theorem fillCoinbase_payee (hkey : m.Keyed) (hmax : R ≤ MAX_MONEY) :
    m.isTransactionValid env.founderPayment.founderStartHeight tx nHeight = some true := by
  unfold CMasternodePayments.isTransactionValid
  cases hb : m.mapMasternodeBlocks.lookup nHeight with
  | none => rfl
  | some b =>
    have hv : tx.getValueOut = some R := by rw [getValueOut_eq hh hR hsb htx, if_pos hmax]
    apply CMasternodeBlockPayees.isTransactionValid_of_paid hv
    intro payee hbest
    have hpayee : env.blockPayee m nHeight = some payee := by
      rw [blockPayee, getBlockPayee, hb, Option.bind_some, hbest]
    refine ⟨CTxOut.of (getMasternodePayment env.founderPayment.founderStartHeight nHeight R) payee,
      ?_, rfl, by rw [hkey nHeight b hb]; rfl⟩
    rw [htx, fillCoinbase_eq hsb, payouts, hpayee]
    simp

omit hh hR in
theorem founder_iff_of_small (hzero : env.founderPayment.getFounderPaymentAmount nHeight R = 0)
    (hnonneg : ∀ o ∈ tx.vout, 0 ≤ o.nValue) :
    (∀ s ≤ R, env.founderPayment.isBlockPayeeValid tx nHeight s = true) ↔
      ∃ script ∈ scriptPubKeyIn :: (env.blockPayee m nHeight).toList,
        env.founderPayment.payeeMatchFounder script = true := by
  have hvout : tx.vout.map (·.scriptPubKey)
      = scriptPubKeyIn :: (env.blockPayee m nHeight).toList := by
    rw [htx, fillCoinbase_eq hsb, payouts, if_pos hzero]
    simp [CTxOut.of, Function.comp_def]
  rw [← hvout]
  constructor
  · intro h
    obtain ⟨o, ho, hmatch⟩ := List.any_eq_true.mp (h R (Int.le_refl R))
    exact ⟨o.scriptPubKey, List.mem_map.mpr ⟨o, ho, rfl⟩, (of_decide_eq_true hmatch).1⟩
  · rintro ⟨script, hscript, hmatch⟩ s hs
    obtain ⟨o, ho, rfl⟩ := List.mem_map.mp hscript
    refine List.any_eq_true.mpr ⟨o, ho, decide_eq_true ⟨hmatch, ?_⟩⟩
    have hmono := env.founderPayment.getFounderPaymentAmount_mono nHeight hs
    have ho0 := hnonneg o ho
    omega

omit hh hR in
theorem founder_of_amount (hne : env.founderPayment.getFounderPaymentAmount nHeight R ≠ 0) :
    ∀ s ≤ R, env.founderPayment.isBlockPayeeValid tx nHeight s = true := by
  intro s hs
  refine List.any_eq_true.mpr ⟨CTxOut.of (env.founderPayment.getFounderPaymentAmount nHeight R)
    (getScriptForDestination (env.founderPayment.getCurrentFounderAddress nHeight)), ?_,
    decide_eq_true ⟨env.founderPayment.payeeMatchFounder_current nHeight, ?_⟩⟩
  · rw [htx, fillCoinbase_eq hsb, payouts, if_neg hne]
    simp
  · exact env.founderPayment.getFounderPaymentAmount_mono nHeight hs

end Built

/-- A synced node that enforces masternode payments, with a local winner. -/
def minerEnv : PayeeEnv where
  isSynced := true
  spork8 := true
  spork9 := true
  spork13 := false
  nSuperblockStartBlock := 92000
  nBudgetPaymentsStartBlock := 92000
  nBudgetPaymentsCycleBlocks := 16616
  nBudgetPaymentsWindowBlocks := 100
  isSuperblockTriggered := fun _ => false
  createSuperblock := fun vout _ => vout
  superblockIsValid := fun _ _ _ => false
  getNextMasternodeInQueueForPayment := fun _ => some [1]
  founderAddress1 := .keyID .null
  founderAddress2 := .keyID .null

def minerCoinbase (R : ℤ) : CTransaction where
  hash := 0
  nVersion := 1
  vin := [⟨.null, [], 4294967295⟩]
  vout := minerEnv.fillCoinbase (empty : CMasternodePayments ℕ) [2] (FOUNDER_START_BLOCK + 1) R
  nLockTime := 0

theorem keyed_empty : (empty : CMasternodePayments H).Keyed := by
  intro nBlockHeight b hb
  exact absurd hb (by simp [empty])

end PayeeEnv

end Stonecoin
