/-
The inputs of mixing (`CWallet::SelectCoinsByDenominations`, `wallet/wallet.cpp`).

The rounds of an input are a parameter; the function asks for them once for each output.  What is
drawn is an order of the outputs and the words of the generator.

The function returns true in two places, and only the second one looks at the denominations.

  * `selectCoinsByDenominations_iff`: when the inputs match the code, whatever is drawn.
-/
import Mathlib.Data.List.Perm.Subperm
import Mathlib.Data.Nat.Find
import Stonecoin.Wallet

namespace Stonecoin.DenominatedInputs

/-- What is drawn. -/
structure Draws (vCoins : List COutput) where
  ordered : List COutput
  perm : ordered.Perm vCoins
  words : ℕ → UInt32

def insecureRand (word : UInt32) (nMax : ℤ) : ℤ := word.toNat % nMax

/-- The arguments, and the rounds of an input. -/
structure Request where
  nDenom : ℤ
  nValueMin : ℤ
  nValueMax : ℤ
  nPrivateSendRoundsMin : ℤ
  nPrivateSendRoundsMax : ℤ
  getInputPrivateSendRounds : COutPoint → ℤ

/-- The variables of the loop, with the number of words that were drawn. -/
structure Picking where
  nValueMax : ℤ
  vecTxInRet : List CTxDSIn
  vCoinsRet : List COutput
  nValueRet : ℤ
  nDenomResult : ℕ
  drawn : ℕ
deriving DecidableEq

/-- An output as an input, with the script that it has. -/
def txInOf (out : COutput) : CTxDSIn where
  prevout := out.outpoint
  scriptSig := []
  nSequence := 4294967295
  prevPubKey := (out.tx.vout.getD out.i CTxOut.null).scriptPubKey
  fHasSig := false

def denomination (nBit : ℕ) : ℤ := vecPrivateSendDenominations.getD nBit 0

def Picking.add (st : Picking) (nBit : ℕ) (out : COutput) : Picking :=
  { st with
    vecTxInRet := st.vecTxInRet ++ [txInOf out]
    vCoinsRet := st.vCoinsRet ++ [out]
    nValueRet := st.nValueRet + out.nValue
    nDenomResult := st.nDenomResult ||| 1 <<< nBit }

variable (req : Request) (words : ℕ → UInt32) (size : ℕ)

/-- The maximum is reduced, and a word is left for the number of inputs. -/
def Picking.reduce (st : Picking) : Picking :=
  { st with
    nValueMax := st.nValueMax - insecureRand (words st.drawn) (st.nValueMax / 5)
    drawn := st.drawn + 2 }

/-- The loop over the bits; on the right the function returns true. -/
def pickCoin (out : COutput) : List ℕ → Picking → Picking ⊕ Picking
  | [], st => .inl st
  | nBit :: vecBits, st =>
    if out.nValue = denomination nBit then
      if req.nValueMin ≤ st.nValueRet then
        let r := insecureRand (words (st.drawn + 1)) size
        let st := st.reduce words
        if r < st.vecTxInRet.length then .inr st
        else pickCoin out vecBits (st.add nBit out)
      else pickCoin out vecBits (st.add nBit out)
    else pickCoin out vecBits st

def pickCoins (vecBits : List ℕ) : List COutput → Picking → Picking ⊕ Picking
  | [], st => .inl st
  | out :: vCoins, st =>
    if st.nValueRet + out.nValue ≤ st.nValueMax then
      let nRounds := req.getInputPrivateSendRounds out.outpoint
      if req.nPrivateSendRoundsMax ≤ nRounds then pickCoins vecBits vCoins st
      else if nRounds < req.nPrivateSendRoundsMin then pickCoins vecBits vCoins st
      else (pickCoin req words size out vecBits st).elim (pickCoins vecBits vCoins) .inr
    else pickCoins vecBits vCoins st

def selectCoinsByDenominations (w : CWallet) (draws : Draws w.availableDenominated) :
    Bool × Picking :=
  let start : Picking := ⟨req.nValueMax, [], [], 0, 0, 0⟩
  match getDenominationsBits req.nDenom with
  | none => (false, start)
  | some vecBits =>
    (pickCoins req draws.words draws.ordered.length vecBits draws.ordered start).elim
      (fun st => (req.nValueMin ≤ st.nValueRet && req.nDenom = st.nDenomResult, st))
      (fun st => (true, st))

/-! ### What is asked for -/

def Candidate (vecBits : List ℕ) (out : COutput) : Prop :=
  req.nPrivateSendRoundsMin ≤ req.getInputPrivateSendRounds out.outpoint ∧
    req.getInputPrivateSendRounds out.outpoint < req.nPrivateSendRoundsMax ∧
      ∃ nBit ∈ vecBits, out.nValue = denomination nBit

def bitsOf (nDenom : ℤ) : List ℕ :=
  (List.range vecPrivateSendDenominations.length).filter fun i => nDenom.testBit i

/-- **The inputs match the code**, if the function returns true. -/
structure Matches (r : Bool × Picking) : Prop where
  distinct : (r.2.vecTxInRet.map fun txin => txin.prevout).Nodup
  inputs : r.2.vecTxInRet = r.2.vCoinsRet.map txInOf
  value : r.2.nValueRet = totalValue r.2.vCoinsRet
  min : req.nValueMin ≤ r.2.nValueRet
  max : r.2.nValueRet ≤ req.nValueMax
  rounds : ∀ out ∈ r.2.vCoinsRet,
    req.nPrivateSendRoundsMin ≤ req.getInputPrivateSendRounds out.outpoint ∧
      req.getInputPrivateSendRounds out.outpoint < req.nPrivateSendRoundsMax
  denominations : ∀ v, v ∈ r.2.vCoinsRet.map COutput.nValue ↔
    ∃ nBit ∈ bitsOf req.nDenom, v = denomination nBit

/-- Outputs that suffice without one of the denominations, and one more output that would fit. -/
def Incomplete (w : CWallet) : Prop :=
  req.nDenom < 1 <<< vecPrivateSendDenominations.length ∧
    ∃ (outs : List COutput) (c : COutput), outs ≠ [] ∧
      (outs ++ [c]).Subperm w.availableDenominated ∧
      (∀ out ∈ outs ++ [c], Candidate req (bitsOf req.nDenom) out) ∧
      req.nValueMin ≤ totalValue outs ∧ totalValue outs + c.nValue ≤ req.nValueMax ∧
      ∃ nBit ∈ bitsOf req.nDenom, denomination nBit ∉ outs.map COutput.nValue

/-! ### The loop over the bits -/

variable {req words size}

theorem getDenominationsBits_eq {nDenom : ℤ} {vecBits : List ℕ}
    (h : getDenominationsBits nDenom = some vecBits) :
    vecBits = bitsOf nDenom ∧ nDenom < 1 <<< vecPrivateSendDenominations.length := by
  change (if 1 <<< vecPrivateSendDenominations.length ≤ nDenom then none
    else if (bitsOf nDenom).isEmpty = true then none else some (bitsOf nDenom)) = some vecBits at h
  split at h
  next => cases h
  next hlt =>
    split at h
    next => cases h
    next => exact ⟨(Option.some.inj h).symm, Int.not_le.mp hlt⟩

theorem denomination_inj : ∀ i < 4, ∀ j < 4, denomination i = denomination j → i = j := by
  decide

variable {nBit : ℕ}

theorem lt_of_mem_bitsOf {nDenom : ℤ} (h : nBit ∈ bitsOf nDenom) : nBit < 4 :=
  List.mem_range.mp (List.mem_filter.mp h).1

theorem nodup_bitsOf (nDenom : ℤ) : (bitsOf nDenom).Nodup := List.nodup_range.filter _

variable {out : COutput}

theorem pickCoin_other : ∀ {vecBits : List ℕ} {st : Picking},
    (∀ nBit ∈ vecBits, out.nValue ≠ denomination nBit) →
      pickCoin req words size out vecBits st = .inl st := by
  intro vecBits
  induction vecBits with
  | nil =>
    intro st _
    rfl
  | cons nBit vecBits ih =>
    intro st h
    rw [pickCoin, if_neg (h nBit List.mem_cons_self)]
    exact ih fun b hb => h b (List.mem_cons_of_mem nBit hb)

theorem pickCoin_eq (hvalue : out.nValue = denomination nBit) :
    ∀ {vecBits : List ℕ} {st : Picking}, vecBits.Nodup → (∀ b ∈ vecBits, b < 4) → nBit ∈ vecBits →
      pickCoin req words size out vecBits st =
        if req.nValueMin ≤ st.nValueRet then
          if insecureRand (words (st.drawn + 1)) size < st.vecTxInRet.length then
            .inr (st.reduce words)
          else .inl ((st.reduce words).add nBit out)
        else .inl (st.add nBit out) := by
  intro vecBits
  induction vecBits with
  | nil =>
    intro st _ _ hmem
    cases hmem
  | cons b vecBits ih =>
    intro st hnodup hlt hmem
    rw [List.nodup_cons] at hnodup
    have hlt' := fun b' hb' => hlt b' (List.mem_cons_of_mem b hb')
    have hbit : nBit < 4 := hlt nBit hmem
    rw [pickCoin]
    by_cases hb : b = nBit
    · subst hb
      -- the bits behind it are other denominations
      have hother : ∀ b' ∈ vecBits, out.nValue ≠ denomination b' := by
        intro b' hb' heq
        rw [hvalue] at heq
        exact hnodup.1 (denomination_inj b hbit b' (hlt' b' hb') heq ▸ hb')
      rw [if_pos hvalue]
      simp only [pickCoin_other hother]
      rfl
    · have hne : out.nValue ≠ denomination b := by
        intro heq
        rw [hvalue] at heq
        exact hb (denomination_inj nBit hbit b (hlt b List.mem_cons_self) heq).symm
      rw [if_neg hne]
      exact ih hnodup.2 hlt' ((List.mem_cons.mp hmem).resolve_left (Ne.symm hb))

/-! ### The loop over the outputs -/

theorem insecureRand_nonneg (word : UInt32) (nMax : ℤ) : 0 ≤ insecureRand word nMax := by
  rw [insecureRand]
  by_cases h : nMax = 0
  · rw [h, Int.emod_zero]
    exact Int.natCast_nonneg _
  · exact Int.emod_nonneg _ h

/-- What the loop keeps, after these outputs. -/
structure Picked (req : Request) (outs : List COutput) (st : Picking) : Prop where
  sub : st.vCoinsRet.Sublist outs
  candidates : ∀ out ∈ st.vCoinsRet, Candidate req (bitsOf req.nDenom) out
  inputs : st.vecTxInRet = st.vCoinsRet.map txInOf
  value : st.nValueRet = totalValue st.vCoinsRet
  le : st.nValueRet ≤ req.nValueMax
  max : st.nValueMax ≤ req.nValueMax
  result : ∀ i, st.nDenomResult.testBit i = true ↔
    i ∈ bitsOf req.nDenom ∧ ∃ out ∈ st.vCoinsRet, out.nValue = denomination i

variable {outs : List COutput} {st : Picking}

theorem Picked.mono {outs' : List COutput} (h : Picked req outs st) (hsub : outs.Sublist outs') :
    Picked req outs' st :=
  ⟨h.sub.trans hsub, h.candidates, h.inputs, h.value, h.le, h.max, h.result⟩

theorem Picked.reduce (h : Picked req outs st) :
    Picked req outs (st.reduce words) := by
  have hnonneg := insecureRand_nonneg (words st.drawn) (st.nValueMax / 5)
  have hmax := h.max
  refine ⟨h.sub, h.candidates, h.inputs, h.value, h.le, ?_, h.result⟩
  show st.nValueMax - insecureRand (words st.drawn) (st.nValueMax / 5) ≤ req.nValueMax
  omega

theorem Picked.add (h : Picked req outs st) (hbit : nBit ∈ bitsOf req.nDenom)
    (hvalue : out.nValue = denomination nBit) (hout : Candidate req (bitsOf req.nDenom) out)
    (hle : st.nValueRet + out.nValue ≤ req.nValueMax) :
    Picked req (outs ++ [out]) (st.add nBit out) := by
  refine ⟨h.sub.append (List.Sublist.refl _), ?_, ?_, ?_, hle, h.max, fun i => ?_⟩
  · intro o ho
    rcases List.mem_append.mp ho with ho | ho
    · exact h.candidates o ho
    · rwa [List.mem_singleton.mp ho]
  · show st.vecTxInRet ++ [txInOf out] = (st.vCoinsRet ++ [out]).map txInOf
    rw [h.inputs, List.map_append]
    rfl
  · show st.nValueRet + out.nValue = totalValue (st.vCoinsRet ++ [out])
    rw [h.value, totalValue, totalValue, List.map_append, List.sum_append]
    simp
  · show (st.nDenomResult ||| 1 <<< nBit).testBit i = true ↔
      i ∈ bitsOf req.nDenom ∧ ∃ o ∈ st.vCoinsRet ++ [out], o.nValue = denomination i
    rw [Nat.testBit_or, Bool.or_eq_true, h.result, Nat.one_shiftLeft, Nat.testBit_two_pow,
      decide_eq_true_eq]
    constructor
    · rintro (⟨hi, o, ho, hval⟩ | rfl)
      · exact ⟨hi, o, List.mem_append_left _ ho, hval⟩
      · exact ⟨hbit, out, by simp, hvalue⟩
    · rintro ⟨hi, o, ho, hval⟩
      rcases List.mem_append.mp ho with ho | ho
      · exact Or.inl ⟨hi, o, ho, hval⟩
      · rw [List.mem_singleton.mp ho, hvalue] at hval
        exact Or.inr (denomination_inj nBit (lt_of_mem_bitsOf hbit) i (lt_of_mem_bitsOf hi) hval)

/-- Where the function returns true inside the loop: what is picked suffices, and an output that
would fit is left. -/
structure Stopped (req : Request) (outs : List COutput) (st : Picking) : Prop where
  picked : Picked req outs st
  min : req.nValueMin ≤ st.nValueRet
  nonempty : st.vCoinsRet ≠ []
  next : ∃ c, (st.vCoinsRet ++ [c]).Sublist outs ∧ Candidate req (bitsOf req.nDenom) c ∧
    st.nValueRet + c.nValue ≤ req.nValueMax

variable (words size) in
theorem Picked.pickCoin (h : Picked req outs st)
    (hmin : req.nPrivateSendRoundsMin ≤ req.getInputPrivateSendRounds out.outpoint)
    (hmax : req.getInputPrivateSendRounds out.outpoint < req.nPrivateSendRoundsMax)
    (hle : st.nValueRet + out.nValue ≤ st.nValueMax) :
    (∃ st', pickCoin req words size out (bitsOf req.nDenom) st = .inl st' ∧
      Picked req (outs ++ [out]) st') ∨
    ∃ st', pickCoin req words size out (bitsOf req.nDenom) st = .inr st' ∧
      Stopped req (outs ++ [out]) st' := by
  have hsub : outs.Sublist (outs ++ [out]) := List.sublist_append_left outs [out]
  have hmaxValue := h.max
  by_cases hother : ∀ nBit ∈ bitsOf req.nDenom, out.nValue ≠ denomination nBit
  · exact Or.inl ⟨st, pickCoin_other hother, h.mono hsub⟩
  · obtain ⟨nBit, hbit, hvalue⟩ : ∃ nBit ∈ bitsOf req.nDenom, out.nValue = denomination nBit := by
      simpa using hother
    have hout : Candidate req (bitsOf req.nDenom) out := ⟨hmin, hmax, nBit, hbit, hvalue⟩
    rw [pickCoin_eq hvalue (nodup_bitsOf _) (fun b hb => lt_of_mem_bitsOf hb) hbit]
    by_cases hsuffices : req.nValueMin ≤ st.nValueRet
    · rw [if_pos hsuffices]
      by_cases hstop : insecureRand (words (st.drawn + 1)) size < st.vecTxInRet.length
      · rw [if_pos hstop]
        refine Or.inr ⟨_, rfl, (h.reduce.mono hsub), hsuffices, ?_, out, ?_, hout, ?_⟩
        · show st.vCoinsRet ≠ []
          intro hnil
          have hnonneg := insecureRand_nonneg (words (st.drawn + 1)) size
          rw [h.inputs, hnil] at hstop
          simp only [List.map_nil, List.length_nil] at hstop
          omega
        · exact h.sub.append (List.Sublist.refl _)
        · show st.nValueRet + out.nValue ≤ req.nValueMax
          omega
      · rw [if_neg hstop]
        refine Or.inl ⟨_, rfl, h.reduce.add hbit hvalue hout ?_⟩
        show st.nValueRet + out.nValue ≤ req.nValueMax
        omega
    · rw [if_neg hsuffices]
      exact Or.inl ⟨_, rfl, h.add hbit hvalue hout (by omega)⟩

variable (words size) in
theorem pickCoins_picked : ∀ (vCoins : List COutput) {outs : List COutput} {st : Picking},
    Picked req outs st →
    (∃ st', pickCoins req words size (bitsOf req.nDenom) vCoins st = .inl st' ∧
      Picked req (outs ++ vCoins) st') ∨
    ∃ st', pickCoins req words size (bitsOf req.nDenom) vCoins st = .inr st' ∧
      Stopped req (outs ++ vCoins) st' := by
  intro vCoins
  induction vCoins with
  | nil =>
    intro outs st h
    exact Or.inl ⟨st, rfl, by rwa [List.append_nil]⟩
  | cons out vCoins ih =>
    intro outs st h
    have hassoc : outs ++ out :: vCoins = (outs ++ [out]) ++ vCoins := by
      rw [List.append_assoc]
      rfl
    have hskip := ih (h.mono (List.sublist_append_left outs [out]))
    rw [hassoc, pickCoins]
    by_cases hle : st.nValueRet + out.nValue ≤ st.nValueMax
    · rw [if_pos hle]
      dsimp only
      by_cases hmax : req.nPrivateSendRoundsMax ≤ req.getInputPrivateSendRounds out.outpoint
      · rwa [if_pos hmax]
      rw [if_neg hmax]
      by_cases hmin : req.getInputPrivateSendRounds out.outpoint < req.nPrivateSendRoundsMin
      · rwa [if_pos hmin]
      rw [if_neg hmin]
      rcases h.pickCoin words size (by omega) (by omega) hle with
        ⟨st', hpick, hst'⟩ | ⟨st', hpick, hst'⟩
      · rw [hpick]
        exact ih hst'
      · rw [hpick]
        refine Or.inr ⟨st', rfl, hst'.picked.mono (List.sublist_append_left _ _), hst'.min,
          hst'.nonempty, ?_⟩
        obtain ⟨c, hc, hrest⟩ := hst'.next
        exact ⟨c, hc.trans (List.sublist_append_left _ _), hrest⟩
    · rwa [if_neg hle]

/-! ### What is returned -/

theorem Picked.start (hle : 0 ≤ req.nValueMax) : Picked req [] ⟨req.nValueMax, [], [], 0, 0, 0⟩ :=
  ⟨List.Sublist.refl _, by simp, rfl, rfl, hle, le_refl _, by simp⟩

theorem Picked.matches {w : CWallet} (h : Picked req outs st)
    (hperm : outs.Perm w.availableDenominated) (hmin : req.nValueMin ≤ st.nValueRet)
    (hall : ∀ nBit ∈ bitsOf req.nDenom, denomination nBit ∈ st.vCoinsRet.map COutput.nValue) :
    Matches req (true, st) := by
  refine ⟨?_, h.inputs, h.value, hmin, h.le, fun out hout => ?_, fun v => ?_⟩
  · show (st.vecTxInRet.map fun txin => txin.prevout).Nodup
    rw [h.inputs, List.map_map]
    exact ((hperm.map COutput.outpoint).nodup_iff.mpr w.nodup_availableDenominated).sublist
      (h.sub.map COutput.outpoint)
  · exact ⟨(h.candidates out hout).1, (h.candidates out hout).2.1⟩
  · constructor
    · intro hv
      obtain ⟨out, hout, rfl⟩ := List.mem_map.mp hv
      exact (h.candidates out hout).2.2
    · rintro ⟨nBit, hbit, rfl⟩
      exact hall nBit hbit

theorem Picked.all_of_eq (h : Picked req outs st) (heq : req.nDenom = st.nDenomResult)
    (hbit : nBit ∈ bitsOf req.nDenom) :
    denomination nBit ∈ st.vCoinsRet.map COutput.nValue := by
  have htest : st.nDenomResult.testBit nBit = true := by
    have hcode := (List.mem_filter.mp hbit).2
    rw [heq] at hcode
    exact hcode
  obtain ⟨-, out, hout, hvalue⟩ := (h.result nBit).mp htest
  rw [← hvalue]
  exact List.mem_map_of_mem hout

theorem matches_of_complete {w : CWallet} (hmax : 0 ≤ req.nValueMax) (h : ¬ Incomplete req w)
    (draws : Draws w.availableDenominated)
    (htrue : (selectCoinsByDenominations req w draws).1 = true) :
    Matches req (selectCoinsByDenominations req w draws) := by
  rw [selectCoinsByDenominations] at htrue ⊢
  cases hbits : getDenominationsBits req.nDenom with
  | none =>
    rw [hbits] at htrue
    cases htrue
  | some vecBits =>
    rw [hbits] at htrue
    obtain ⟨rfl, hcode⟩ := getDenominationsBits_eq hbits
    dsimp only at htrue ⊢
    rcases pickCoins_picked draws.words draws.ordered.length draws.ordered (Picked.start hmax) with
      ⟨st, hrun, hst⟩ | ⟨st, hrun, hst⟩
    · rw [hrun] at htrue ⊢
      rw [List.nil_append] at hst
      have hcond : req.nValueMin ≤ st.nValueRet ∧ req.nDenom = st.nDenomResult := by
        simpa using htrue
      have hm := hst.matches draws.perm hcond.1 fun nBit hbit => hst.all_of_eq hcond.2 hbit
      exact ⟨hm.distinct, hm.inputs, hm.value, hm.min, hm.max, hm.rounds, hm.denominations⟩
    · rw [hrun]
      rw [List.nil_append] at hst
      refine hst.picked.matches draws.perm hst.min fun nBit hbit => ?_
      by_contra hmissing
      obtain ⟨c, hsub, hc, hfits⟩ := hst.next
      refine h ⟨hcode, st.vCoinsRet, c, hst.nonempty, ?_, fun out hout => ?_, ?_, ?_, nBit, hbit,
        hmissing⟩
      · exact hsub.subperm.trans draws.perm.subperm
      · rcases List.mem_append.mp hout with hout | hout
        · exact hst.picked.candidates out hout
        · rwa [List.mem_singleton.mp hout]
      · rw [← hst.picked.value]
        exact hst.min
      · rw [← hst.picked.value]
        exact hfits

/-! ### Where it goes wrong -/

theorem insecureRand_zero (nMax : ℤ) : insecureRand 0 nMax = 0 := Int.zero_emod nMax

theorem totalValue_append (outs outs' : List COutput) :
    totalValue (outs ++ outs') = totalValue outs + totalValue outs' := by
  rw [totalValue, List.map_append, List.sum_append]
  rfl

theorem totalValue_singleton (out : COutput) : totalValue [out] = out.nValue := by
  simp [totalValue]

/-- The maximum has not been reduced. -/
structure Unreduced (req : Request) (st : Picking) : Prop where
  length : st.vecTxInRet.length = st.vCoinsRet.length
  value : st.nValueRet = totalValue st.vCoinsRet
  max : st.nValueMax = req.nValueMax

theorem Unreduced.add (h : Unreduced req st) (nBit : ℕ) (out : COutput) :
    Unreduced req (st.add nBit out) := by
  refine ⟨?_, ?_, h.max⟩
  · show (st.vecTxInRet ++ [txInOf out]).length = (st.vCoinsRet ++ [out]).length
    rw [List.length_append, List.length_append, h.length]
    rfl
  · show st.nValueRet + out.nValue = totalValue (st.vCoinsRet ++ [out])
    rw [totalValue_append, totalValue_singleton, h.value]

theorem Unreduced.reduce (h : Unreduced req st) :
    Unreduced req (st.reduce fun _ => 0) := by
  refine ⟨h.length, h.value, ?_⟩
  show st.nValueMax - insecureRand 0 (st.nValueMax / 5) = req.nValueMax
  rw [insecureRand_zero, sub_zero]
  exact h.max

variable (size) in
theorem Unreduced.pickCoin (h : Unreduced req st) (hout : Candidate req (bitsOf req.nDenom) out)
    (hmin : st.vCoinsRet = [] ∨ totalValue st.vCoinsRet < req.nValueMin) :
    ∃ st', pickCoin req (fun _ => 0) size out (bitsOf req.nDenom) st = .inl st' ∧
      Unreduced req st' ∧ st'.vCoinsRet = st.vCoinsRet ++ [out] := by
  obtain ⟨-, -, nBit, hbit, hdenom⟩ := hout
  rw [pickCoin_eq hdenom (nodup_bitsOf _) (fun b hb => lt_of_mem_bitsOf hb) hbit]
  by_cases hsuffices : req.nValueMin ≤ st.nValueRet
  · -- the number of inputs is 0, and so is what is drawn for it
    have hnil : st.vCoinsRet = [] := by
      rcases hmin with hnil | hless
      · exact hnil
      · rw [← h.value] at hless
        omega
    have hlength := h.length
    rw [hnil, List.length_nil] at hlength
    rw [if_pos hsuffices, insecureRand_zero, hlength, if_neg (by simp)]
    exact ⟨_, rfl, h.reduce.add nBit out, rfl⟩
  · rw [if_neg hsuffices]
    exact ⟨_, rfl, h.add nBit out, rfl⟩

variable (size) in
theorem Unreduced.pickCoins : ∀ {outs : List COutput} (rest : List COutput) {st : Picking},
    Unreduced req st → (∀ out ∈ outs, Candidate req (bitsOf req.nDenom) out) →
    (∀ out ∈ outs, 0 < out.nValue) →
    (∀ n < outs.length, st.vCoinsRet ++ outs.take n = [] ∨
      totalValue (st.vCoinsRet ++ outs.take n) < req.nValueMin) →
    totalValue (st.vCoinsRet ++ outs) ≤ req.nValueMax →
      ∃ st', pickCoins req (fun _ => 0) size (bitsOf req.nDenom) (outs ++ rest) st =
          pickCoins req (fun _ => 0) size (bitsOf req.nDenom) rest st' ∧
        Unreduced req st' ∧ st'.vCoinsRet = st.vCoinsRet ++ outs := by
  intro outs
  induction outs with
  | nil =>
    intro rest st h _ _ _ _
    exact ⟨st, rfl, h, by rw [List.append_nil]⟩
  | cons out outs ih =>
    intro rest st h hcand hpos hmin hle
    have hout := hcand out List.mem_cons_self
    have hassoc : st.vCoinsRet ++ out :: outs = (st.vCoinsRet ++ [out]) ++ outs := by
      rw [List.append_assoc]
      rfl
    have hfits : st.nValueRet + out.nValue ≤ st.nValueMax := by
      have hrest : 0 ≤ totalValue outs := by
        refine List.sum_nonneg fun v hv => ?_
        obtain ⟨o, ho, rfl⟩ := List.mem_map.mp hv
        exact (hpos o (List.mem_cons_of_mem out ho)).le
      rw [hassoc, totalValue_append, totalValue_append, totalValue_singleton] at hle
      rw [h.value, h.max]
      omega
    have hfirst := hmin 0 (Nat.succ_pos _)
    rw [List.take_zero, List.append_nil] at hfirst
    obtain ⟨st₁, hpick, hst₁, hcoins⟩ := h.pickCoin size hout hfirst
    have hlow := hout.1
    have hhigh := hout.2.1
    rw [List.cons_append, DenominatedInputs.pickCoins, if_pos hfits]
    dsimp only
    rw [if_neg (by omega), if_neg (by omega), hpick, Sum.elim_inl]
    rw [hassoc, ← hcoins] at hle ⊢
    refine ih rest hst₁ (fun o ho => hcand o (List.mem_cons_of_mem out ho))
      (fun o ho => hpos o (List.mem_cons_of_mem out ho)) (fun n hn => ?_) hle
    have hnext := hmin (n + 1) (Nat.succ_lt_succ hn)
    rw [List.take_succ_cons] at hnext
    rw [hcoins, List.append_assoc]
    exact hnext

theorem denomination_pos : ∀ i < 4, 0 < denomination i := by
  decide

theorem Candidate.pos (h : Candidate req (bitsOf req.nDenom) out) :
    0 < out.nValue := by
  obtain ⟨-, -, nBit, hbit, hvalue⟩ := h
  rw [hvalue]
  exact denomination_pos nBit (lt_of_mem_bitsOf hbit)

theorem exists_first (hne : outs ≠ []) (hmin : req.nValueMin ≤ totalValue outs) :
    ∃ k, 0 < k ∧ req.nValueMin ≤ totalValue (outs.take k) ∧
      ∀ n < k, n = 0 ∨ totalValue (outs.take n) < req.nValueMin := by
  have hexists : ∃ k, 0 < k ∧ req.nValueMin ≤ totalValue (outs.take k) :=
    ⟨outs.length, List.length_pos_iff.mpr hne, by rwa [List.take_length]⟩
  refine ⟨Nat.find hexists, (Nat.find_spec hexists).1, (Nat.find_spec hexists).2, fun n hn => ?_⟩
  have hnot := Nat.find_min hexists hn
  by_cases hzero : n = 0
  · exact Or.inl hzero
  · exact Or.inr (Int.not_le.mp fun hle => hnot ⟨Nat.pos_of_ne_zero hzero, hle⟩)

theorem exists_mismatch {w : CWallet} (h : Incomplete req w) :
    ∃ draws : Draws w.availableDenominated, (selectCoinsByDenominations req w draws).1 = true ∧
      ¬ Matches req (selectCoinsByDenominations req w draws) := by
  obtain ⟨hcode, outs, c, hne, hsub, hcand, hmin, hmax, nBit, hbit, hmissing⟩ := h
  have hcand' : ∀ out ∈ outs, Candidate req (bitsOf req.nDenom) out :=
    fun out hout => hcand out (List.mem_append_left _ hout)
  have hc : Candidate req (bitsOf req.nDenom) c := hcand c (by simp)
  obtain ⟨k, hk, hfirst, hbefore⟩ := exists_first hne hmin
  -- the outputs that suffice, then one more, then the others
  have htake : (outs.take k ++ [c]).Subperm w.availableDenominated :=
    (((List.take_sublist k outs).append (List.Sublist.refl [c])).subperm).trans hsub
  obtain ⟨l, hperm, hl⟩ := htake
  obtain ⟨rest, hrest⟩ := hl.exists_perm_append
  have hordered : (outs.take k ++ c :: rest).Perm w.availableDenominated := by
    refine List.Perm.symm (hrest.trans ?_)
    have happend := hperm.append_right rest
    rwa [List.append_assoc] at happend
  have hsmaller : totalValue (outs.take k) ≤ totalValue outs := by
    have hdrop : 0 ≤ totalValue (outs.drop k) := by
      refine List.sum_nonneg fun v hv => ?_
      obtain ⟨o, ho, rfl⟩ := List.mem_map.mp hv
      exact (hcand' o (List.mem_of_mem_drop ho)).pos.le
    have hsplit := totalValue_append (outs.take k) (outs.drop k)
    rw [List.take_append_drop] at hsplit
    omega
  have hcpos := hc.pos
  have hstart : Unreduced req ⟨req.nValueMax, [], [], 0, 0, 0⟩ := ⟨rfl, rfl, rfl⟩
  have htaken : ∀ out ∈ outs.take k, Candidate req (bitsOf req.nDenom) out :=
    fun out hout => hcand' out (List.mem_of_mem_take hout)
  have hearly : ∀ n < (outs.take k).length, [] ++ (outs.take k).take n = [] ∨
      totalValue ([] ++ (outs.take k).take n) < req.nValueMin := by
    intro n hn
    rw [List.length_take] at hn
    rw [List.nil_append, List.take_take, Nat.min_eq_left (by omega)]
    rcases hbefore n (by omega) with rfl | hless
    · exact Or.inl rfl
    · exact Or.inr hless
  obtain ⟨st, hrun, hst, hcoins⟩ := hstart.pickCoins (outs.take k ++ c :: rest).length (c :: rest)
    htaken (fun out hout => (htaken out hout).pos) hearly (by
      show totalValue (outs.take k) ≤ req.nValueMax
      omega)
  rw [List.nil_append] at hcoins
  have hvalue : st.nValueRet = totalValue (outs.take k) := by rw [hst.value, hcoins]
  have hlength : 0 < st.vecTxInRet.length := by
    rw [hst.length, hcoins, List.length_take]
    have hpos := List.length_pos_iff.mpr hne
    omega
  have hstop : pickCoins req (fun _ => 0) (outs.take k ++ c :: rest).length (bitsOf req.nDenom)
      (outs.take k ++ c :: rest) ⟨req.nValueMax, [], [], 0, 0, 0⟩ = .inr (st.reduce fun _ => 0) := by
    have hlow := hc.1
    have hhigh := hc.2.1
    have hstmax := hst.max
    obtain ⟨-, -, cBit, hcBit, hcvalue⟩ := hc
    rw [hrun, pickCoins, if_pos (by omega)]
    dsimp only
    rw [if_neg (by omega), if_neg (by omega),
      pickCoin_eq hcvalue (nodup_bitsOf _) (fun b hb => lt_of_mem_bitsOf hb) hcBit,
      if_pos (by omega), insecureRand_zero, if_pos (by exact_mod_cast hlength), Sum.elim_inr]
  have hbits : getDenominationsBits req.nDenom = some (bitsOf req.nDenom) := by
    show (if 1 <<< vecPrivateSendDenominations.length ≤ req.nDenom then none
      else if (bitsOf req.nDenom).isEmpty = true then none else some (bitsOf req.nDenom)) = _
    rw [if_neg (Int.not_le.mpr hcode), if_neg]
    rw [List.isEmpty_iff]
    exact List.ne_nil_of_mem hbit
  have hresult : selectCoinsByDenominations req w ⟨_, hordered, fun _ => 0⟩ =
      (true, st.reduce fun _ => 0) := by
    rw [selectCoinsByDenominations, hbits]
    dsimp only
    rw [hstop, Sum.elim_inr]
  refine ⟨⟨_, hordered, fun _ => 0⟩, by rw [hresult], fun hmatches => ?_⟩
  rw [hresult] at hmatches
  have hin := (hmatches.denominations (denomination nBit)).mpr ⟨nBit, hbit, rfl⟩
  have hin : denomination nBit ∈ st.vCoinsRet.map COutput.nValue := hin
  rw [hcoins] at hin
  exact hmissing ((List.take_sublist k outs).map COutput.nValue |>.subset hin)

/-- **The inputs match the session's denominations**, whatever is drawn, if and only if no outputs
suffice without one of the denominations while one more would fit. -/
theorem selectCoinsByDenominations_iff (w : CWallet) (req : Request) (hmin : 0 ≤ req.nValueMin)
    (hmax : req.nValueMin ≤ req.nValueMax) :
    (∀ draws : Draws w.availableDenominated, (selectCoinsByDenominations req w draws).1 = true →
      Matches req (selectCoinsByDenominations req w draws)) ↔ ¬ Incomplete req w := by
  constructor
  · intro hall h
    obtain ⟨draws, htrue, hnot⟩ := exists_mismatch h
    exact hnot (hall draws htrue)
  · intro h draws htrue
    exact matches_of_complete (hmin.trans hmax) h draws htrue

/-- Two outputs of 10 coins, and nothing else. -/
def twoTens : CWallet where
  mapWallet := [⟨1, 1, [], [CTxOut.of (denomination 1) [], CTxOut.of (denomination 1) []], 0⟩]
  hashes := List.nodup_singleton _
  checkFinalTx := fun _ => true
  isTrusted := fun _ => true
  inMempool := fun _ => false
  blocksToMaturity := fun _ => 0
  depthInMainChain := fun _ => 6
  isMine := fun _ => ISMINE_SPENDABLE
  isSpent := fun _ _ => false
  isLockedCoin := fun _ _ => false

/-- Inputs of 100 and of 10 coins, from 10 coins on. -/
def hundredAndTen : Request where
  nDenom := 3
  nValueMin := denomination 1
  nValueMax := 1000 * COIN
  nPrivateSendRoundsMin := 0
  nPrivateSendRoundsMax := 2
  getInputPrivateSendRounds := fun _ => 1

/-- One output of 10 coins is found, where one of 100 coins was asked for too. -/
theorem selectCoinsByDenominations_iff_hundred :
    (∀ draws : Draws twoTens.availableDenominated,
      (selectCoinsByDenominations hundredAndTen twoTens draws).1 = true →
        Matches hundredAndTen (selectCoinsByDenominations hundredAndTen twoTens draws)) ↔
      ¬ Incomplete hundredAndTen twoTens :=
  selectCoinsByDenominations_iff twoTens hundredAndTen (by decide) (by decide)

/-- The second output of 10 coins ends the loop, and no output of 100 coins is there. -/
theorem one_ten : ∃ draws : Draws twoTens.availableDenominated,
    (selectCoinsByDenominations hundredAndTen twoTens draws).1 = true ∧
      ¬ Matches hundredAndTen (selectCoinsByDenominations hundredAndTen twoTens draws) := by
  have hpicked : ((selectCoinsByDenominations hundredAndTen twoTens
      ⟨_, List.Perm.refl _, fun _ => 0⟩).2.vCoinsRet.map COutput.nValue) = [denomination 1] := by
    decide +kernel
  refine ⟨⟨_, List.Perm.refl _, fun _ => 0⟩, by decide +kernel, fun hmatches => ?_⟩
  have hin := (hmatches.denominations (denomination 0)).mpr ⟨0, by decide, rfl⟩
  rw [hpicked] at hin
  exact absurd hin (by decide)

end Stonecoin.DenominatedInputs
