/-
`Consensus::CheckTxInputs` and `Consensus::IsInputBanned` of `main.cpp`, with what keeps them from
returning: an exception or a failed assertion.

From `nStoneHeight` on, the sender of a pay-to-pubkey-hash output is taken from the top of the
stack that the scriptSig leaves, before any script check has run.  A scriptSig that leaves nothing
makes `stack.at` throw.

  * `checkTxInputs_iff`: when there is a verdict, and what it says.
-/
import Stonecoin.InterpreterSafety
import Stonecoin.Solver
import Stonecoin.Coins

namespace Stonecoin.InputChecks

open Interpreter

/-- Why there is no verdict. -/
inductive CheckFault
  /-- `std::out_of_range`, of `vector::at`. -/
  | outOfRange
  /-- A failed assertion. -/
  | assertion
  /-- An access behind the end of `vout`. -/
  | outOfBounds
  /-- The exception of `GetValueOut`. -/
  | valueOutOfRange
  /-- What the interpreter does not catch. -/
  | interpreter (f : Fault)
deriving DecidableEq, Repr

/-- What `AccessCoins` answers; the view answers a question again as it did before. -/
abbrev CoinsAnswers := UInt256 → Option CCoins

/-- What the checks read besides the transaction: the hashes of scripts, the destinations of
`bannedAddresses`, the height of the fork, the coins, and the height of the spending block. -/
structure CheckEnv where
  crypto : ScriptCrypto
  bannedAddresses : List CTxDestination
  nStoneHeight : ℤ
  inputs : CoinsAnswers
  nSpendHeight : ℤ

variable (env : CheckEnv)

/-- The evaluation of a scriptSig with the checker that refuses everything. -/
def CheckEnv.evalSig (scriptSig : CScript) : Except Stop (List Valtype) :=
  (evalScript env.crypto SCRIPT_VERIFY_P2SH .base [] scriptSig).outcome

def isInputBanned (input : CTxIn) : Except CheckFault Bool :=
  match env.inputs input.prevout.hash with
  | none => .error .assertion
  | some coins =>
    if !coins.isAvailable input.prevout.n then .error .assertion
    else
      let prev := coins.vout.getD input.prevout.n .null
      let r := solver prev.scriptPubKey
      if !r.ok then .ok true
      else if r.typeRet = .TX_PUBKEYHASH then
        match env.evalSig input.scriptSig with
        | .error (.fault f) => .error (.interpreter f)
        | .error _ => .ok true
        -- `stack.at(stack.size() + (-1))`
        | .ok [] => .error .outOfRange
        | .ok (vchPubKey :: _) =>
          if !isValidPubKey vchPubKey then .ok true
          else .ok (env.bannedAddresses.contains (.keyID (env.crypto.hash160 vchPubKey)))
      else .ok false

def haveInputs (tx : CTransaction) : Bool :=
  tx.isCoinBase || tx.vin.all fun txin =>
    match env.inputs txin.prevout.hash with
    | none => false
    | some coins => coins.isAvailable txin.prevout.n

def checkInput (nValueIn : ℤ) (txin : CTxIn) : Except CheckFault (Except Reject ℤ) :=
  match env.inputs txin.prevout.hash with
  | none => .error .assertion
  | some coins =>
    if coins.fCoinBase ∧ env.nSpendHeight - coins.nHeight < COINBASE_MATURITY then
      .ok (dos 0 "bad-txns-premature-spend-of-coinbase" false)
    else
      match coins.vout[txin.prevout.n]? with
      | none => .error .outOfBounds
      | some prevout =>
        let nValueIn := nValueIn + prevout.nValue
        if !moneyRange prevout.nValue || !moneyRange nValueIn then
          .ok (dos 100 "bad-txns-inputvalues-outofrange" false)
        else if env.nSpendHeight < env.nStoneHeight then .ok (.ok nValueIn)
        else
          match isInputBanned env txin with
          | .error e => .error e
          | .ok true => .ok (dos 100 "bad-txns-in-banned" false)
          | .ok false => .ok (.ok nValueIn)

def checkInputs : ℤ → List CTxIn → Except CheckFault (Except Reject ℤ)
  | nValueIn, [] => .ok (.ok nValueIn)
  | nValueIn, txin :: vin =>
    match checkInput env nValueIn txin with
    | .error e => .error e
    | .ok (.error r) => .ok (.error r)
    | .ok (.ok nValueIn) => checkInputs nValueIn vin

def checkTxInputs (tx : CTransaction) : Except CheckFault (Except Reject Unit) :=
  if !haveInputs env tx then .ok (.error ⟨0, 0, "Inputs unavailable", false⟩)
  else
    match checkInputs env 0 tx.vin with
    | .error e => .error e
    | .ok (.error r) => .ok (.error r)
    | .ok (.ok nValueIn) =>
      match tx.getValueOut with
      | none => .error .valueOutOfRange
      | some nValueOut =>
        if nValueIn < nValueOut then .ok (dos 100 "bad-txns-in-belowout" false)
        else
          let nTxFee := nValueIn - nValueOut
          if nTxFee < 0 then .ok (dos 100 "bad-txns-fee-negative" false)
          else if !moneyRange nTxFee then .ok (dos 100 "bad-txns-fee-outofrange" false)
          else .ok (.ok ())

/-! ### One input -/

/-- The coins of a coinbase that is not mature. -/
def Premature (coins : CCoins) : Prop :=
  coins.fCoinBase ∧ env.nSpendHeight - coins.nHeight < COINBASE_MATURITY

instance (coins : CCoins) : Decidable (Premature env coins) := inferInstanceAs (Decidable (_ ∧ _))

/-- The input spends an output that is mature, with values in range. -/
def Spends (nValueIn : ℤ) (txin : CTxIn) (coins : CCoins) (prevout : CTxOut) : Prop :=
  env.inputs txin.prevout.hash = some coins ∧ ¬ Premature env coins ∧
    coins.vout[txin.prevout.n]? = some prevout ∧ moneyRange prevout.nValue = true ∧
      moneyRange (nValueIn + prevout.nValue) = true

/-- The sender of the output is known and not banned. -/
def Allowed (txin : CTxIn) (prevout : CTxOut) : Prop :=
  prevout.isNull = false ∧ (solver prevout.scriptPubKey).ok = true ∧
    ((solver prevout.scriptPubKey).typeRet = .TX_PUBKEYHASH →
      ∃ vchPubKey stack, env.evalSig txin.scriptSig = .ok (vchPubKey :: stack) ∧
        isValidPubKey vchPubKey = true ∧
          .keyID (env.crypto.hash160 vchPubKey) ∉ env.bannedAddresses)

/-- The sender of the output is to be found on an empty stack, or the output is spent. -/
def NoSender (txin : CTxIn) (prevout : CTxOut) : Prop :=
  prevout.isNull = true ∨ (solver prevout.scriptPubKey).ok = true ∧
    (solver prevout.scriptPubKey).typeRet = .TX_PUBKEYHASH ∧ env.evalSig txin.scriptSig = .ok []

def Passes (nValueIn : ℤ) (txin : CTxIn) (v : ℤ) : Prop :=
  ∃ coins prevout, Spends env nValueIn txin coins prevout ∧ v = nValueIn + prevout.nValue ∧
    (env.nStoneHeight ≤ env.nSpendHeight → Allowed env txin prevout)

/-- Nothing can be said about the input: the view has no coins for it, or no such output, or the
sender is to be found on an empty stack. -/
def Throws (nValueIn : ℤ) (txin : CTxIn) : Prop :=
  env.inputs txin.prevout.hash = none ∨
    ∃ coins, env.inputs txin.prevout.hash = some coins ∧ ¬ Premature env coins ∧
      (coins.vout[txin.prevout.n]? = none ∨
        ∃ prevout, Spends env nValueIn txin coins prevout ∧
          env.nStoneHeight ≤ env.nSpendHeight ∧ NoSender env txin prevout)

variable {env}

theorem isAvailable_of_getElem? {coins : CCoins} {n : ℕ} {prevout : CTxOut}
    (h : coins.vout[n]? = some prevout) : coins.isAvailable n = !prevout.isNull := by
  rw [CCoins.isAvailable, h]

theorem evalSig_ne_fault (scriptSig : CScript) (f : Fault) :
    env.evalSig scriptSig ≠ .error (.fault f) := by
  intro h
  have hsafe : Outcomes.Ensures Stop.Harmless Fits (env.evalSig scriptSig) :=
    ensures_evalScript fits_nil scriptSig
  rw [h] at hsafe
  exact hsafe

theorem isInputBanned_eq {txin : CTxIn} {coins : CCoins} {prevout : CTxOut}
    (hcoins : env.inputs txin.prevout.hash = some coins)
    (hprevout : coins.vout[txin.prevout.n]? = some prevout) :
    (isInputBanned env txin = .ok false ↔ Allowed env txin prevout) ∧
      ((∃ e, isInputBanned env txin = .error e) ↔ NoSender env txin prevout) := by
  have hget : coins.vout.getD txin.prevout.n .null = prevout := by
    rw [List.getD_eq_getElem?_getD, hprevout]
    rfl
  unfold isInputBanned Allowed NoSender
  rw [hcoins]
  dsimp only
  rw [isAvailable_of_getElem? hprevout, hget]
  cases hnull : prevout.isNull with
  | true => simp
  | false =>
    cases hok : (solver prevout.scriptPubKey).ok with
    | false => simp
    | true =>
      by_cases htype : (solver prevout.scriptPubKey).typeRet = .TX_PUBKEYHASH
      · rcases heval : env.evalSig txin.scriptSig with e | stack
        · cases e with
          | error e => simp [htype]
          | thrown x => simp [htype]
          | fault f => exact absurd heval (evalSig_ne_fault _ f)
        · cases stack with
          | nil => simp [htype]
          | cons vchPubKey stack =>
            cases hvalid : isValidPubKey vchPubKey with
            | false => simp [htype, hvalid]
            | true => simp [htype, hvalid]
      · simp [htype]

section Found

variable {nValueIn v : ℤ} {txin : CTxIn} {coins : CCoins} {prevout : CTxOut}

theorem passes_iff (hcoins : env.inputs txin.prevout.hash = some coins)
    (hprevout : coins.vout[txin.prevout.n]? = some prevout) :
    Passes env nValueIn txin v ↔ ¬ Premature env coins ∧
      (moneyRange prevout.nValue = true ∧ moneyRange (nValueIn + prevout.nValue) = true) ∧
        v = nValueIn + prevout.nValue ∧
          (env.nStoneHeight ≤ env.nSpendHeight → Allowed env txin prevout) := by
  constructor
  · rintro ⟨coins', prevout', ⟨hc, hpre, hp, hrange⟩, hv, hallowed⟩
    obtain rfl := Option.some.inj (hcoins.symm.trans hc)
    obtain rfl := Option.some.inj (hprevout.symm.trans hp)
    exact ⟨hpre, hrange, hv, hallowed⟩
  · rintro ⟨hpre, hrange, hv, hallowed⟩
    exact ⟨coins, prevout, ⟨hcoins, hpre, hprevout, hrange⟩, hv, hallowed⟩

theorem throws_iff (hcoins : env.inputs txin.prevout.hash = some coins)
    (hprevout : coins.vout[txin.prevout.n]? = some prevout) :
    Throws env nValueIn txin ↔ ¬ Premature env coins ∧
      (moneyRange prevout.nValue = true ∧ moneyRange (nValueIn + prevout.nValue) = true) ∧
        env.nStoneHeight ≤ env.nSpendHeight ∧ NoSender env txin prevout := by
  constructor
  · rintro (hnone | ⟨coins', hc, hpre, hnone | ⟨prevout', ⟨hc', -, hp, hrange⟩, hfork, hsender⟩⟩)
    · exact absurd (hnone.symm.trans hcoins) (Option.some_ne_none _).symm
    · obtain rfl := Option.some.inj (hcoins.symm.trans hc)
      exact absurd (hnone.symm.trans hprevout) (Option.some_ne_none _).symm
    · obtain rfl := Option.some.inj (hcoins.symm.trans hc)
      obtain rfl := Option.some.inj (hprevout.symm.trans hp)
      exact ⟨hpre, hrange, hfork, hsender⟩
  · rintro ⟨hpre, hrange, hfork, hsender⟩
    exact .inr ⟨coins, hcoins, hpre, .inr ⟨prevout, ⟨hcoins, hpre, hprevout, hrange⟩, hfork,
      hsender⟩⟩

end Found

variable (env) in
theorem checkInput_eq (nValueIn : ℤ) (txin : CTxIn) :
    (∀ v, checkInput env nValueIn txin = .ok (.ok v) ↔ Passes env nValueIn txin v) ∧
      ((∃ e, checkInput env nValueIn txin = .error e) ↔ Throws env nValueIn txin) := by
  cases hcoins : env.inputs txin.prevout.hash with
  | none =>
    have hno : ∀ v, ¬ Passes env nValueIn txin v := by
      rintro v ⟨coins, prevout, ⟨hc, -⟩, -⟩
      exact absurd (hcoins.symm.trans hc) (Option.some_ne_none _).symm
    have hthrows : Throws env nValueIn txin := .inl hcoins
    simp [checkInput, hcoins, hno, hthrows]
  | some coins =>
    cases hprevout : coins.vout[txin.prevout.n]? with
    | none =>
      have hno : ∀ v, ¬ Passes env nValueIn txin v := by
        rintro v ⟨coins', prevout, ⟨hc, -, hp, -⟩, -⟩
        obtain rfl := Option.some.inj (hcoins.symm.trans hc)
        exact absurd (hprevout.symm.trans hp) (Option.some_ne_none _).symm
      have hthrows : Throws env nValueIn txin ↔ ¬ Premature env coins := by
        constructor
        · rintro (hnone | ⟨coins', hc, hpre, -⟩)
          · exact absurd (hnone.symm.trans hcoins) (Option.some_ne_none _).symm
          · obtain rfl := Option.some.inj (hcoins.symm.trans hc)
            exact hpre
        · exact fun hpre => .inr ⟨coins, hcoins, hpre, .inl hprevout⟩
      simp only [hthrows, iff_false, hno, checkInput, hcoins, hprevout]
      by_cases hpre : Premature env coins
      · simp [hpre, dos, show _ ∧ _ from hpre]
      · simp [hpre, show ¬ (_ ∧ _) from hpre]
    | some prevout =>
      simp only [passes_iff hcoins hprevout, throws_iff hcoins hprevout, checkInput, hcoins,
        hprevout]
      obtain ⟨hallowed, hthrows⟩ := isInputBanned_eq hcoins hprevout
      by_cases hpre : Premature env coins
      · simp [hpre, dos, show _ ∧ _ from hpre]
      simp only [if_neg (show ¬ (_ ∧ _) from hpre), hpre, not_false_eq_true, true_and]
      by_cases hrange : moneyRange prevout.nValue = true ∧
          moneyRange (nValueIn + prevout.nValue) = true
      · simp only [hrange.1, hrange.2, Bool.not_true, Bool.or_false, Bool.false_eq_true, if_false,
          and_self, true_and]
        by_cases hheight : env.nSpendHeight < env.nStoneHeight
        · simp [hheight, Int.not_le.mpr hheight, eq_comm]
        · have hfork : env.nStoneHeight ≤ env.nSpendHeight := Int.not_lt.mp hheight
          simp only [if_neg hheight, hfork, forall_const, true_and]
          rw [← hallowed, ← hthrows]
          rcases isInputBanned env txin with e | banned
          · simp
          · cases banned with
            | true => simp [dos]
            | false => simp [eq_comm]
      · have hout : (!moneyRange prevout.nValue || !moneyRange (nValueIn + prevout.nValue)) =
            true := by
          rw [← Bool.not_and, Bool.not_eq_true']
          exact Bool.eq_false_iff.mpr fun h => hrange (Bool.and_eq_true_iff.mp h)
        simp [hout, hrange, dos]

/-! ### All inputs -/

/-- The inputs pass one after another, from the total `v` to the total `w`. -/
def PassAll (env : CheckEnv) : ℤ → List CTxIn → ℤ → Prop
  | v, [], w => w = v
  | v, txin :: vin, w => ∃ u, Passes env v txin u ∧ PassAll env u vin w

/-- An input throws behind others that pass. -/
def SomeThrows (env : CheckEnv) (v : ℤ) (vin : List CTxIn) : Prop :=
  ∃ before txin after u, vin = before ++ txin :: after ∧ PassAll env v before u ∧
    Throws env u txin

theorem someThrows_cons {v : ℤ} {txin : CTxIn} {vin : List CTxIn} :
    SomeThrows env v (txin :: vin) ↔
      Throws env v txin ∨ ∃ u, Passes env v txin u ∧ SomeThrows env u vin := by
  constructor
  · rintro ⟨before, txin', after, u, heq, hpass, hthrows⟩
    cases before with
    | nil =>
      obtain ⟨rfl, -⟩ := List.cons.inj heq
      obtain rfl : u = v := hpass
      exact .inl hthrows
    | cons first before =>
      obtain ⟨rfl, htail⟩ := List.cons.inj heq
      obtain ⟨w, hfirst, hrest⟩ := hpass
      exact .inr ⟨w, hfirst, before, txin', after, u, htail, hrest, hthrows⟩
  · rintro (hthrows | ⟨u, hpass, before, txin', after, w, rfl, hrest, hthrows⟩)
    · exact ⟨[], txin, vin, v, rfl, rfl, hthrows⟩
    · exact ⟨txin :: before, txin', after, w, rfl, ⟨u, hpass, hrest⟩, hthrows⟩

variable (env) in
theorem checkInputs_eq : ∀ (vin : List CTxIn) (v : ℤ),
    (∀ w, checkInputs env v vin = .ok (.ok w) ↔ PassAll env v vin w) ∧
      ((∃ e, checkInputs env v vin = .error e) ↔ SomeThrows env v vin) := by
  intro vin
  induction vin with
  | nil =>
    intro v
    refine ⟨fun w => by simp [checkInputs, PassAll, eq_comm], ?_⟩
    simp [checkInputs, SomeThrows]
  | cons txin vin ih =>
    intro v
    obtain ⟨hpasses, hthrows⟩ := checkInput_eq env v txin
    rw [someThrows_cons, ← hthrows]
    simp only [checkInputs, PassAll, ← hpasses]
    rcases checkInput env v txin with e | r | u
    · simp
    · simp
    · simp [ih]

/-! ### The verdict -/

def SpentOutput (env : CheckEnv) (txin : CTxIn) (prevout : CTxOut) : Prop :=
  ∃ coins, env.inputs txin.prevout.hash = some coins ∧ coins.vout[txin.prevout.n]? = some prevout

/-- What is known of a transaction and of the outputs that it spends when it passes. -/
structure Checked (env : CheckEnv) (tx : CTransaction) (prevouts : List CTxOut) : Prop where
  spent : List.Forall₂ (SpentOutput env) tx.vin prevouts
  values : ∀ prevout ∈ prevouts, moneyRange prevout.nValue = true
  totals : ∀ k, moneyRange ((prevouts.take k).map (·.nValue)).sum = true
  covered : (tx.vout.map (·.nValue)).sum ≤ (prevouts.map (·.nValue)).sum
  solved : env.nStoneHeight ≤ env.nSpendHeight →
    ∀ prevout ∈ prevouts, (solver prevout.scriptPubKey).ok = true

theorem PassAll.spent : ∀ {vin : List CTxIn} {v w : ℤ}, moneyRange v = true →
    PassAll env v vin w → ∃ prevouts : List CTxOut, List.Forall₂ (SpentOutput env) vin prevouts ∧
      (∀ prevout ∈ prevouts, moneyRange prevout.nValue = true) ∧
      (∀ k, moneyRange (v + ((prevouts.take k).map (·.nValue)).sum) = true) ∧
      w = v + (prevouts.map (·.nValue)).sum ∧
      (env.nStoneHeight ≤ env.nSpendHeight →
        ∀ prevout ∈ prevouts, (solver prevout.scriptPubKey).ok = true) := by
  intro vin
  induction vin with
  | nil =>
    rintro v w hv rfl
    exact ⟨[], .nil, by simp, by simpa using hv, by simp, by simp⟩
  | cons txin vin ih =>
    rintro v w hv ⟨u, ⟨coins, prevout, ⟨hcoins, -, hprevout, hvalue, htotal⟩, rfl, hallowed⟩, hrest⟩
    obtain ⟨prevouts, hspent, hvalues, htotals, hw, hsolved⟩ := ih htotal hrest
    refine ⟨prevout :: prevouts, .cons ⟨coins, hcoins, hprevout⟩ hspent, ?_, ?_, ?_, ?_⟩
    · exact List.forall_mem_cons.mpr ⟨hvalue, hvalues⟩
    · intro k
      cases k with
      | zero => simpa using hv
      | succ k =>
        rw [List.take_succ_cons, List.map_cons, List.sum_cons, ← Int.add_assoc]
        exact htotals k
    · rw [hw, List.map_cons, List.sum_cons, Int.add_assoc]
    · intro hfork
      exact List.forall_mem_cons.mpr ⟨(hallowed hfork).2.1, hsolved hfork⟩

/-- The verdict is reached: no input throws, and the sum of the outputs is in range once all
inputs pass. -/
def Decides (env : CheckEnv) (tx : CTransaction) : Prop :=
  haveInputs env tx = true →
    ¬ SomeThrows env 0 tx.vin ∧ ((∃ w, PassAll env 0 tx.vin w) → tx.getValueOut ≠ none)

theorem checkTxInputs_eq_error (env : CheckEnv) (tx : CTransaction) :
    (∃ e, checkTxInputs env tx = .error e) ↔ ¬ Decides env tx := by
  obtain ⟨hpass, hthrows⟩ := checkInputs_eq env tx.vin 0
  unfold checkTxInputs Decides
  cases hhave : haveInputs env tx with
  | false => simp
  | true =>
    simp only [Bool.not_true, Bool.false_eq_true, if_false, true_implies, ← hthrows, ← hpass]
    rcases checkInputs env 0 tx.vin with e | r | w
    · simp
    · simp
    · cases tx.getValueOut with
      | none => simp
      | some nValueOut =>
        simp only [dos]
        split_ifs <;> simp

theorem checked_of_checkTxInputs {tx : CTransaction} (h : checkTxInputs env tx = .ok (.ok ())) :
    ∃ prevouts, Checked env tx prevouts := by
  have hpass := (checkInputs_eq env tx.vin 0).1
  unfold checkTxInputs at h
  cases hhave : haveInputs env tx with
  | false => simp [hhave] at h
  | true =>
    simp only [hhave, Bool.not_true, Bool.false_eq_true, if_false] at h
    rcases hloop : checkInputs env 0 tx.vin with e | r | nValueIn
    · simp [hloop] at h
    · simp [hloop] at h
    · cases hout : tx.getValueOut with
      | none => simp [hloop, hout] at h
      | some nValueOut =>
        simp only [hloop, hout, dos] at h
        have hle : ¬ nValueIn < nValueOut := by
          intro hlt
          simp [hlt] at h
        obtain ⟨prevouts, hspent, hvalues, htotals, hsum, hsolved⟩ :=
          PassAll.spent (by decide) ((hpass nValueIn).mp hloop)
        obtain ⟨-, hvalueOut, -⟩ := getValueOutLoop_some (by decide) hout
        rw [Int.zero_add] at hsum hvalueOut
        refine ⟨prevouts, hspent, hvalues, fun k => ?_, ?_, hsolved⟩
        · rw [← Int.zero_add (List.sum _)]
          exact htotals k
        · rw [← hsum, ← hvalueOut]
          exact Int.not_lt.mp hle

/-- **The verdict on the inputs of a transaction** is reached exactly when nothing throws. -/
theorem checkTxInputs_iff (env : CheckEnv) (tx : CTransaction) :
    ((∃ verdict, checkTxInputs env tx = .ok verdict) ∧
      (checkTxInputs env tx = .ok (.ok ()) → ∃ prevouts, Checked env tx prevouts)) ↔
      Decides env tx := by
  have herror := checkTxInputs_eq_error env tx
  constructor
  · rintro ⟨⟨verdict, hverdict⟩, -⟩
    refine Classical.byContradiction fun hno => ?_
    obtain ⟨e, he⟩ := herror.mpr hno
    exact absurd (he.symm.trans hverdict) (by simp)
  · intro hdecides
    refine ⟨?_, checked_of_checkTxInputs⟩
    cases hresult : checkTxInputs env tx with
    | error e => exact absurd hdecides (herror.mp ⟨e, hresult⟩)
    | ok verdict => exact ⟨verdict, rfl⟩

/-- One output of an address, at the height of the fork. -/
def forkEnv : CheckEnv where
  crypto := nullCrypto
  bannedAddresses := []
  nStoneHeight := 90000
  inputs := fun hash => if hash = 1 then
    some ⟨false, [.of 100 (getScriptForDestination (.keyID .null))], 500, 1⟩ else none
  nSpendHeight := 90000

/-- A transaction that spends it with an empty scriptSig. -/
def unsignedTx : CTransaction where
  hash := 2
  nVersion := 1
  vin := [⟨⟨1, 0⟩, [], 0xffffffff⟩]
  vout := [.of 50 (getScriptForDestination (.keyID .null))]
  nLockTime := 0

theorem unsigned_throws : ¬ ∃ verdict, checkTxInputs forkEnv unsignedTx = .ok verdict := by
  have hthrown : checkTxInputs forkEnv unsignedTx = .error .outOfRange := by
    decide +kernel
  rintro ⟨verdict, hverdict⟩
  exact absurd (hthrown.symm.trans hverdict) (by simp)

end Stonecoin.InputChecks
