/-
The selection of coins (`wallet/wallet.cpp`): `ApproximateBestSubset` and
`CWallet::SelectCoinsMinConf`.

What is drawn is a parameter: an order for the outputs and a bit for each pass over each value.
The sums of different coins stay below 2^62; the sum that can overflow is the target and
`MIN_CHANGE`.
-/
import Mathlib.Algebra.BigOperators.Group.Finset.Basic
import Mathlib.Algebra.Order.BigOperators.Group.Finset
import Stonecoin.Loops
import Stonecoin.MarkedSums
import Stonecoin.Wallet

namespace Stonecoin

open MarkedSums

/-! ### `ApproximateBestSubset` -/

structure Search where
  nTotal : ℤ
  vfIncluded : List Bool
  fReachedTarget : Bool
  nBest : ℤ
  vfBest : List Bool
deriving DecidableEq, Repr

/-- One value: it is included, and taken out again if the target is reached with it. -/
def Search.visit (vValue : List ℤ) (nTargetValue : ℤ) (fInclude : Bool) (s : Search) (i : ℕ) : Search :=
  if fInclude then
    let nTotal := s.nTotal + vValue.getD i 0
    let vfIncluded := s.vfIncluded.set i true
    if nTargetValue ≤ nTotal then
      { nTotal := nTotal - vValue.getD i 0
        vfIncluded := vfIncluded.set i false
        fReachedTarget := true
        nBest := if nTotal < s.nBest then nTotal else s.nBest
        vfBest := if nTotal < s.nBest then vfIncluded else s.vfBest }
    else { s with nTotal := nTotal, vfIncluded := vfIncluded }
  else s

/-- The first pass draws a bit for each value, the second takes those that are not included. -/
def Search.pass (vValue : List ℤ) (nTargetValue : ℤ) (nPass : ℕ) (bits : ℕ → Bool) (s : Search) :
    Search :=
  (List.range vValue.length).foldl (fun s i =>
    s.visit vValue nTargetValue (if nPass = 0 then bits i else !s.vfIncluded.getD i true) i) s

/-- One repetition. -/
def Search.rep (vValue : List ℤ) (nTargetValue : ℤ) (bits : ℕ → Bool) (s : Search) : Search :=
  let s := { s with
    vfIncluded := List.replicate vValue.length false, nTotal := 0, fReachedTarget := false }
  let s := s.pass vValue nTargetValue 0 bits
  if s.fReachedTarget then s else s.pass vValue nTargetValue 1 bits

/-- The repetitions, from `nRep` on. -/
def Search.loop (vValue : List ℤ) (nTargetValue : ℤ) (bits : ℕ → ℕ → Bool) : ℕ → ℕ → Search → Search
  | 0, _, s => s
  | iterations + 1, nRep, s =>
    if s.nBest = nTargetValue then s
    else Search.loop vValue nTargetValue bits iterations (nRep + 1)
      (s.rep vValue nTargetValue (bits nRep))

/-- A value that is not needed is taken out of the best subset. -/
def reduce (vValue : List ℤ) (nTargetValue : ℤ) (best : List Bool × ℤ) (i : ℕ) : List Bool × ℤ :=
  if best.1.getD i false && nTargetValue ≤ best.2 - vValue.getD i 0 then
    (best.1.set i false, best.2 - vValue.getD i 0)
  else best

def approximateBestSubset (bits : ℕ → ℕ → Bool) (vValue : List ℤ) (nTotalLower nTargetValue : ℤ)
    (iterations : ℕ) : List Bool × ℤ :=
  let s := Search.loop vValue nTargetValue bits iterations 0
    ⟨0, [], false, nTotalLower, List.replicate vValue.length true⟩
  (List.range vValue.length).foldl (reduce vValue nTargetValue) (s.vfBest, s.nBest)

/-! #### The best subset -/

/-- The best subset so far has its sum, and covers the target. -/
structure Search.Covers (vValue : List ℤ) (nTargetValue : ℤ) (s : Search) : Prop where
  best : s.nBest = markedSum vValue s.vfBest
  target : nTargetValue ≤ s.nBest

/-- In a pass the values that are included have their sum too. -/
structure Search.Passing (vValue : List ℤ) (nTargetValue : ℤ) (s : Search) : Prop
    extends s.Covers vValue nTargetValue where
  total : s.nTotal = markedSum vValue s.vfIncluded
  length : s.vfIncluded.length = vValue.length

section

variable {vValue : List ℤ} {nTargetValue : ℤ} {s : Search}

theorem Search.Passing.visit (h : s.Passing vValue nTargetValue) (fInclude : Bool) {i : ℕ}
    (hi : fInclude = true → s.vfIncluded[i]? = some false) :
    (s.visit vValue nTargetValue fInclude i).Passing vValue nTargetValue ∧
      ∀ j, j ≠ i → (s.visit vValue nTargetValue fInclude i).vfIncluded[j]? = s.vfIncluded[j]? := by
  rw [Search.visit]
  by_cases hinclude : fInclude = true
  · rw [if_pos hinclude]
    have hfalse := hi hinclude
    have hset : markedSum vValue (s.vfIncluded.set i true) = _ := markedSum_set_true hfalse
    by_cases hreached : nTargetValue ≤ s.nTotal + vValue.getD i 0
    · rw [if_pos hreached]
      obtain ⟨hlt, hget⟩ := List.getElem?_eq_some_iff.mp hfalse
      have hback : (s.vfIncluded.set i true).set i false = s.vfIncluded := by
        rw [List.set_set, ← hget, List.set_getElem_self]
      refine ⟨⟨⟨?_, ?_⟩, ?_, ?_⟩, fun j hj => ?_⟩
      · show (if s.nTotal + vValue.getD i 0 < s.nBest then _ else _) =
          markedSum vValue (if s.nTotal + vValue.getD i 0 < s.nBest then _ else _)
        split
        next => rw [h.total, hset]
        next => exact h.best
      · show nTargetValue ≤ if s.nTotal + vValue.getD i 0 < s.nBest then _ else _
        split
        next => exact hreached
        next => exact h.target
      · show s.nTotal + vValue.getD i 0 - vValue.getD i 0 = markedSum vValue _
        rw [hback, add_sub_cancel_right, h.total]
      · rw [hback]
        exact h.length
      · show ((s.vfIncluded.set i true).set i false)[j]? = _
        rw [hback]
    · rw [if_neg hreached]
      refine ⟨⟨⟨h.best, h.target⟩, ?_, ?_⟩, fun j hj => ?_⟩
      · show s.nTotal + vValue.getD i 0 = markedSum vValue (s.vfIncluded.set i true)
        rw [hset, h.total]
      · show (s.vfIncluded.set i true).length = vValue.length
        rw [List.length_set]
        exact h.length
      · exact List.getElem?_set_ne (Ne.symm hj)
  · rw [if_neg hinclude]
    exact ⟨h, fun j _ => rfl⟩

theorem Search.Passing.pass_zero (h : s.Passing vValue nTargetValue) (bits : ℕ → Bool)
    (hnone : s.vfIncluded = List.replicate vValue.length false) :
    (s.pass vValue nTargetValue 0 bits).Passing vValue nTargetValue := by
  refine (Loops.foldl_range (P := fun i (s : Search) => s.Passing vValue nTargetValue ∧
    ∀ j, i ≤ j → j < vValue.length → s.vfIncluded[j]? = some false) ⟨h, ?_⟩ ?_).1
  · intro j _ hj
    rw [hnone]
    simp [hj]
  · rintro i hi s ⟨hs, hrest⟩
    obtain ⟨hvisit, hframe⟩ := hs.visit (bits i) fun _ => hrest i (le_refl i) hi
    exact ⟨hvisit, fun j hij hj => (hframe j (by omega)).trans (hrest j (by omega) hj)⟩

theorem Search.Passing.pass_one (h : s.Passing vValue nTargetValue) (bits : ℕ → Bool) :
    (s.pass vValue nTargetValue 1 bits).Passing vValue nTargetValue := by
  refine Loops.foldl_range (P := fun _ (s : Search) => s.Passing vValue nTargetValue) h ?_
  intro i hi s hs
  refine (hs.visit _ fun hinclude => ?_).1
  have hlt : i < s.vfIncluded.length := by rwa [hs.length]
  rw [if_neg (by decide)] at hinclude
  simpa [hlt] using hinclude

theorem Search.Covers.rep (h : s.Covers vValue nTargetValue) (bits : ℕ → Bool) :
    (s.rep vValue nTargetValue bits).Covers vValue nTargetValue := by
  have hstart : Search.Passing vValue nTargetValue { s with
      vfIncluded := List.replicate vValue.length false, nTotal := 0, fReachedTarget := false } :=
    ⟨⟨h.best, h.target⟩, (markedSum_replicate_false vValue _).symm, List.length_replicate⟩
  have hzero := hstart.pass_zero bits rfl
  rw [Search.rep]
  split
  next => exact hzero.toCovers
  next => exact (hzero.pass_one bits).toCovers

theorem Search.Covers.loop (bits : ℕ → ℕ → Bool) : ∀ (iterations nRep : ℕ) {s : Search},
    s.Covers vValue nTargetValue →
      (Search.loop vValue nTargetValue bits iterations nRep s).Covers vValue nTargetValue := by
  intro iterations
  induction iterations with
  | zero =>
    intro nRep s h
    exact h
  | succ iterations ih =>
    intro nRep s h
    rw [Search.loop]
    split
    next => exact h
    next => exact ih (nRep + 1) (h.rep (bits nRep))

end

theorem approximateBestSubset_spec (bits : ℕ → ℕ → Bool) {vValue : List ℤ}
    {nTotalLower nTargetValue : ℤ} (iterations : ℕ) (htotal : nTotalLower = vValue.sum)
    (htarget : nTargetValue ≤ nTotalLower) :
    (approximateBestSubset bits vValue nTotalLower nTargetValue iterations).2 =
      markedSum vValue (approximateBestSubset bits vValue nTotalLower nTargetValue iterations).1 ∧
        nTargetValue ≤ (approximateBestSubset bits vValue nTotalLower nTargetValue iterations).2 := by
  have hstart : Search.Covers vValue nTargetValue
      ⟨0, [], false, nTotalLower, List.replicate vValue.length true⟩ := by
    refine ⟨?_, htarget⟩
    rw [htotal, markedSum_replicate_true]
  have hloop := hstart.loop bits iterations 0
  refine Loops.foldl_range (P := fun _ (best : List Bool × ℤ) => best.2 = markedSum vValue best.1 ∧
    nTargetValue ≤ best.2) ⟨hloop.best, hloop.target⟩ ?_
  rintro i hi ⟨vfBest, nBest⟩ ⟨hsum, hle⟩
  rw [reduce]
  split
  next hcond =>
    rw [Bool.and_eq_true, decide_eq_true_eq] at hcond
    obtain ⟨hmark, hrest⟩ := hcond
    refine ⟨?_, hrest⟩
    have htrue : vfBest[i]? = some true := by
      rw [List.getD_eq_getElem?_getD] at hmark
      cases hget : vfBest[i]? with
      | none => simp [hget] at hmark
      | some b => simpa [hget] using hmark
    dsimp only at hsum ⊢
    rw [markedSum_set_false htrue, hsum]
  next => exact ⟨hsum, hle⟩

/-! ### `CWallet::SelectCoinsMinConf` -/

namespace CoinSelection

/-- A sum does not fit into a `CAmount`. -/
inductive Fault where
  | overflow
deriving DecidableEq, Repr

/-- A sum of two amounts that are not negative. -/
def addAmounts (a b : ℤ) : Except Fault ℤ := if a + b < 2 ^ 63 then .ok (a + b) else .error .overflow

/-- What is drawn: an order for the outputs, and a bit for each value that is looked at, by the
search, the repetition and the value. -/
structure Draws where
  shuffle : List COutput → List COutput
  perm : ∀ vCoins, (shuffle vCoins).Perm vCoins
  bits : ℕ → ℕ → ℕ → Bool

/-- What a selection depends on: `IsFromMe(ISMINE_ALL)`, and the arguments. -/
structure Request where
  isFromMe : CTransaction → Bool
  nTargetValue : ℤ
  nConfMine : ℤ
  nConfTheirs : ℤ

/-- A value with the output that has it. -/
abbrev Coin := ℤ × (CTransaction × ℕ)

/-- What is returned. -/
structure Selection where
  found : Bool
  setCoinsRet : Finset (CTransaction × ℕ)
  nValueRet : ℤ
deriving DecidableEq

def insertCoins (coins : List Coin) : Selection :=
  coins.foldl (fun r coin => ⟨true, insert coin.2 r.setCoinsRet, r.nValueRet + coin.1⟩) ⟨true, ∅, 0⟩

/-- The variables of the loop over the outputs. -/
structure Scan where
  vValue : List Coin
  nTotalLower : ℤ
  coinLowestLarger : Option Coin
deriving DecidableEq

def lessThenDenom (out1 out2 : COutput) : Bool :=
  let found1 := vecPrivateSendDenominations.any fun d => out1.nValue = d
  let found2 := vecPrivateSendDenominations.any fun d => out2.nValue = d
  !found1 && found2

variable (req : Request)

/-- The loop over the outputs: a coin that is the target, or the coins below the target and the
lowest larger one. -/
def scan (tryDenom : ℕ) : List COutput → Scan → Except Fault (Coin ⊕ Scan)
  | [], s => .ok (.inr s)
  | output :: vCoins, s =>
    if !output.fSpendable then scan tryDenom vCoins s
    else if output.nDepth < (if req.isFromMe output.tx then req.nConfMine else req.nConfTheirs) then
      scan tryDenom vCoins s
    else
      let n := output.nValue
      if tryDenom = 0 ∧ isDenominatedAmount n = true then scan tryDenom vCoins s
      else
        let coin := (n, output.key)
        if n = req.nTargetValue then .ok (.inl coin)
        else
          addAmounts req.nTargetValue MIN_CHANGE >>= fun nBound =>
            if n < nBound then
              scan tryDenom vCoins
                { s with vValue := s.vValue ++ [coin], nTotalLower := s.nTotalLower + n }
            -- without a coin its value is `numeric_limits<CAmount>::max()`
            else if n < (s.coinLowestLarger.map Prod.fst).getD (2 ^ 63 - 1) then
              scan tryDenom vCoins { s with coinLowestLarger := some coin }
            else scan tryDenom vCoins s

/-- The two looks at the outputs: a selection, or what is left to be solved. -/
def tryDenoms (vCoins : List COutput) : List ℕ → Scan → Except Fault (Selection ⊕ Scan)
  | [], s => .ok (.inr s)
  | tryDenom :: rest, s =>
    scan req tryDenom vCoins { s with vValue := [], nTotalLower := 0 } >>= fun
      | .inl coin => .ok (.inl (insertCoins [coin]))
      | .inr s =>
        if s.nTotalLower = req.nTargetValue then .ok (.inl (insertCoins s.vValue))
        else if s.nTotalLower < req.nTargetValue then
          match s.coinLowestLarger with
          | none => if tryDenom = 0 then tryDenoms vCoins rest s else .ok (.inl ⟨false, ∅, 0⟩)
          | some coin => .ok (.inl (insertCoins [coin]))
        else .ok (.inr s)

/-- The best subset, for the target or for the target and change. -/
def bestSubset (bits : ℕ → ℕ → ℕ → Bool) (vValue : List Coin) (nTotalLower : ℤ) :
    Except Fault (List Bool × ℤ) :=
  let best := approximateBestSubset (bits 0) (vValue.map Prod.fst) nTotalLower req.nTargetValue 1000
  if best.2 ≠ req.nTargetValue then
    addAmounts req.nTargetValue MIN_CHANGE >>= fun nBound =>
      if nBound ≤ nTotalLower then
        .ok (approximateBestSubset (bits 1) (vValue.map Prod.fst) nTotalLower nBound 1000)
      else .ok best
  else .ok best

/-- The bigger coin is taken: there was no good solution, or it is closer. -/
def takeBigger (coin : Coin) (nBest : ℤ) : Except Fault Bool :=
  if nBest ≠ req.nTargetValue then
    addAmounts req.nTargetValue MIN_CHANGE >>= fun nBound =>
      .ok (nBest < nBound || coin.1 ≤ nBest)
  else .ok (coin.1 ≤ nBest)

/-- The end of the function: the subset sum. -/
def solve (bits : ℕ → ℕ → ℕ → Bool) (s : Scan) : Except Fault Selection :=
  let vValue := s.vValue.mergeSort fun a b => b.1 ≤ a.1
  bestSubset req bits vValue s.nTotalLower >>= fun best =>
    match s.coinLowestLarger with
    | none => .ok (insertCoins (picked vValue best.1))
    | some coin =>
      takeBigger req coin best.2 >>= fun bigger =>
        if bigger then .ok (insertCoins [coin]) else .ok (insertCoins (picked vValue best.1))

def selectCoinsMinConf (draws : Draws) (vCoins : List COutput) : Except Fault Selection :=
  let vCoins := (draws.shuffle vCoins).mergeSort fun a b => !lessThenDenom b a
  tryDenoms req vCoins [0, 1] ⟨[], 0, none⟩ >>= Sum.elim .ok (solve req draws.bits)

/-! ### What is found -/

/-- Spendable, with enough confirmations. -/
def eligible (out : COutput) : Bool :=
  out.fSpendable && !decide (out.nDepth < if req.isFromMe out.tx then req.nConfMine else req.nConfTheirs)

/-- What a look at the outputs takes into account. -/
def accepted (tryDenom : ℕ) (out : COutput) : Bool :=
  eligible req out && !(decide (tryDenom = 0) && isDenominatedAmount out.nValue)

def coinOf (out : COutput) : Coin := (out.nValue, out.key)

/-- The selection is made of these outputs, and covers the target. -/
structure Valid (outs : List COutput) (r : Selection) : Prop where
  found : r.found = true
  coins : ∀ c ∈ r.setCoinsRet, ∃ out ∈ outs, c = out.key
  value : r.nValueRet = ∑ c ∈ r.setCoinsRet, valueOf c
  target : req.nTargetValue ≤ r.nValueRet

/-- Where the loop over the outputs stands, after those that it has taken into account. -/
structure Scanned (nBound : ℤ) (outs : List COutput) (s : Scan) : Prop where
  values : s.vValue = (outs.filter fun out => out.nValue < nBound).map coinOf
  total : s.nTotalLower = (s.vValue.map Prod.fst).sum
  lower : s.coinLowestLarger = none → ∀ out ∈ outs, out.nValue < nBound
  larger : ∀ coin, s.coinLowestLarger = some coin → ∃ out ∈ outs, coin = coinOf out ∧
    nBound ≤ out.nValue

variable {req}

variable {outs : List COutput}

theorem Valid.mono {outs' : List COutput} {r : Selection} (h : Valid req outs r)
    (hsub : ∀ out ∈ outs, out ∈ outs') : Valid req outs' r := by
  refine ⟨h.found, fun c hc => ?_, h.value, h.target⟩
  obtain ⟨out, hout, hkey⟩ := h.coins c hc
  exact ⟨out, hsub out hout, hkey⟩

theorem Valid.le_total {r : Selection} (h : Valid req outs r)
    (hnodup : (outs.map COutput.key).Nodup) (hpos : ∀ out ∈ outs, 0 < out.nValue) :
    req.nTargetValue ≤ totalValue outs := by
  have hsub : r.setCoinsRet ⊆ (outs.map COutput.key).toFinset := by
    intro c hc
    obtain ⟨out, hout, rfl⟩ := h.coins c hc
    exact List.mem_toFinset.mpr (List.mem_map_of_mem hout)
  calc req.nTargetValue ≤ r.nValueRet := h.target
    _ = ∑ c ∈ r.setCoinsRet, valueOf c := h.value
    _ ≤ ∑ c ∈ (outs.map COutput.key).toFinset, valueOf c := by
        refine Finset.sum_le_sum_of_subset_of_nonneg hsub fun c hc _ => ?_
        obtain ⟨out, hout, rfl⟩ := List.mem_map.mp (List.mem_toFinset.mp hc)
        exact (hpos out hout).le
    _ = totalValue outs := by
        rw [List.sum_toFinset valueOf hnodup, List.map_map]
        rfl

theorem insertCoins_eq (coins : List Coin) : ∀ r : Selection, r.found = true →
    coins.foldl (fun r coin => ⟨true, insert coin.2 r.setCoinsRet, r.nValueRet + coin.1⟩) r =
      (⟨true, (coins.map Prod.snd).toFinset ∪ r.setCoinsRet,
        r.nValueRet + (coins.map Prod.fst).sum⟩ : Selection) := by
  induction coins with
  | nil =>
    rintro ⟨found, set, value⟩ rfl
    simp
  | cons coin coins ih =>
    rintro ⟨found, set, value⟩ rfl
    rw [List.foldl_cons, ih _ rfl, List.map_cons, List.map_cons, List.sum_cons, List.toFinset_cons]
    refine congrArg₂ (Selection.mk true) ?_ (add_assoc _ _ _)
    rw [Finset.union_insert, Finset.insert_union]

theorem insertCoins_valid {coins : List Coin}
    (hcoins : ∀ coin ∈ coins, ∃ out ∈ outs, coin = coinOf out)
    (hnodup : (coins.map Prod.snd).Nodup) (htarget : req.nTargetValue ≤ (coins.map Prod.fst).sum) :
    Valid req outs (insertCoins coins) := by
  rw [insertCoins, insertCoins_eq coins _ rfl]
  have hsum : (coins.map Prod.fst).sum = ∑ c ∈ (coins.map Prod.snd).toFinset, valueOf c := by
    rw [List.sum_toFinset valueOf hnodup, List.map_map]
    refine congrArg List.sum (List.map_congr_left fun coin hcoin => ?_)
    obtain ⟨out, -, rfl⟩ := hcoins coin hcoin
    rfl
  refine ⟨rfl, fun c hc => ?_, ?_, ?_⟩
  · rw [Finset.union_empty, List.mem_toFinset] at hc
    obtain ⟨coin, hcoin, rfl⟩ := List.mem_map.mp hc
    obtain ⟨out, hout, rfl⟩ := hcoins coin hcoin
    exact ⟨out, hout, rfl⟩
  · rw [Finset.union_empty, zero_add]
    exact hsum
  · rw [zero_add]
    exact htarget

theorem insertCoins_single {out : COutput} (hout : out ∈ outs)
    (htarget : req.nTargetValue ≤ out.nValue) : Valid req outs (insertCoins [coinOf out]) := by
  refine insertCoins_valid ?_ (by simp) (by simpa [coinOf] using htarget)
  intro coin hcoin
  exact ⟨out, hout, List.mem_singleton.mp hcoin⟩

/-! ### One look at the outputs -/

theorem addAmounts_bind {β : Type} {a b : ℤ} (h : a + b < 2 ^ 63) (f : ℤ → Except Fault β) :
    (addAmounts a b >>= f) = f (a + b) := by
  rw [addAmounts, if_pos h]
  rfl

theorem addAmounts_overflow {β : Type} {a b : ℤ} (h : 2 ^ 63 ≤ a + b) (f : ℤ → Except Fault β) :
    (addAmounts a b >>= f) = .error .overflow := by
  rw [addAmounts, if_neg (by omega)]
  rfl

variable {tryDenom : ℕ}

theorem scan_skip {output : COutput} (h : accepted req tryDenom output = false)
    (vCoins : List COutput) (s : Scan) :
    scan req tryDenom (output :: vCoins) s = scan req tryDenom vCoins s := by
  rw [accepted, eligible] at h
  rw [scan]
  cases hspendable : output.fSpendable with
  | false => rfl
  | true =>
    rw [hspendable] at h
    rw [if_neg (by decide)]
    by_cases hdepth : output.nDepth < if req.isFromMe output.tx then req.nConfMine else req.nConfTheirs
    · rw [if_pos hdepth]
    · rw [if_neg hdepth]
      have hdenom : tryDenom = 0 ∧ isDenominatedAmount output.nValue = true := by
        simpa [hdepth] using h
      exact if_pos hdenom

theorem scan_accept {output : COutput} (h : accepted req tryDenom output = true)
    (vCoins : List COutput) (s : Scan) : scan req tryDenom (output :: vCoins) s =
      if output.nValue = req.nTargetValue then .ok (.inl (coinOf output))
      else
        addAmounts req.nTargetValue MIN_CHANGE >>= fun nBound =>
          if output.nValue < nBound then
            scan req tryDenom vCoins { s with
              vValue := s.vValue ++ [coinOf output], nTotalLower := s.nTotalLower + output.nValue }
          else if output.nValue < (s.coinLowestLarger.map Prod.fst).getD (2 ^ 63 - 1) then
            scan req tryDenom vCoins { s with coinLowestLarger := some (coinOf output) }
          else scan req tryDenom vCoins s := by
  rw [accepted, eligible, Bool.and_eq_true, Bool.and_eq_true] at h
  obtain ⟨⟨hspendable, hdepth⟩, hdenom⟩ := h
  rw [scan, hspendable, if_neg (by decide), if_neg (by simpa using hdepth)]
  have hnot : ¬ (tryDenom = 0 ∧ isDenominatedAmount output.nValue = true) := by
    rintro ⟨rfl, hden⟩
    rw [hden] at hdenom
    cases hdenom
  exact if_neg hnot

theorem scan_spec (hfits : req.nTargetValue + MIN_CHANGE < 2 ^ 63) (tryDenom : ℕ) :
    ∀ {vCoins outs : List COutput} {s : Scan}, (∀ out ∈ vCoins, out.nValue < 2 ^ 63 - 1) →
      Scanned (req.nTargetValue + MIN_CHANGE) outs s →
      (∃ out ∈ vCoins.filter (accepted req tryDenom), out.nValue = req.nTargetValue ∧
        scan req tryDenom vCoins s = .ok (.inl (coinOf out))) ∨
      ∃ s', scan req tryDenom vCoins s = .ok (.inr s') ∧
        Scanned (req.nTargetValue + MIN_CHANGE) (outs ++ vCoins.filter (accepted req tryDenom)) s' := by
  intro vCoins
  induction vCoins with
  | nil =>
    intro outs s _ h
    exact Or.inr ⟨s, rfl, by rwa [List.filter_nil, List.append_nil]⟩
  | cons output vCoins ih =>
    intro outs s hmax h
    have hmax' := fun out hout => hmax out (List.mem_cons_of_mem output hout)
    cases haccepted : accepted req tryDenom output with
    | false =>
      rw [scan_skip haccepted, List.filter_cons_of_neg (by rw [haccepted]; decide)]
      exact ih hmax' h
    | true =>
      rw [scan_accept haccepted, List.filter_cons_of_pos haccepted]
      by_cases hexact : output.nValue = req.nTargetValue
      · rw [if_pos hexact]
        exact Or.inl ⟨output, List.mem_cons_self, hexact, rfl⟩
      · rw [if_neg hexact, addAmounts_bind hfits]
        -- the outputs so far, with this one
        have hnext : ∀ s', Scanned (req.nTargetValue + MIN_CHANGE) (outs ++ [output]) s' →
            (∃ out ∈ output :: vCoins.filter (accepted req tryDenom),
              out.nValue = req.nTargetValue ∧
                scan req tryDenom vCoins s' = .ok (.inl (coinOf out))) ∨
            ∃ s'', scan req tryDenom vCoins s' = .ok (.inr s'') ∧
              Scanned (req.nTargetValue + MIN_CHANGE)
                (outs ++ output :: vCoins.filter (accepted req tryDenom)) s'' := by
          intro s' hs'
          rcases ih hmax' hs' with ⟨out, hout, hvalue, hscan⟩ | ⟨s'', hscan, hs''⟩
          · exact Or.inl ⟨out, List.mem_cons_of_mem output hout, hvalue, hscan⟩
          · exact Or.inr ⟨s'', hscan, by rwa [List.append_assoc] at hs''⟩
        by_cases hlower : output.nValue < req.nTargetValue + MIN_CHANGE
        · rw [if_pos hlower]
          refine hnext _ ⟨?_, ?_, ?_, ?_⟩
          · rw [List.filter_append, List.map_append, ← h.values]
            simp [hlower]
          · rw [List.map_append, List.sum_append, ← h.total]
            simp [coinOf]
          · intro hnone out hout
            rcases List.mem_append.mp hout with hout | hout
            · exact h.lower hnone out hout
            · rwa [List.mem_singleton.mp hout]
          · intro coin hcoin
            obtain ⟨out, hout, hrest⟩ := h.larger coin hcoin
            exact ⟨out, List.mem_append_left _ hout, hrest⟩
        · rw [if_neg hlower]
          have hvalues : s.vValue = ((outs ++ [output]).filter fun out =>
              out.nValue < req.nTargetValue + MIN_CHANGE).map coinOf := by
            rw [List.filter_append, h.values]
            simp [hlower]
          split
          next hlarger =>
            refine hnext _ ⟨hvalues, h.total, (fun hnone => by cases hnone), fun coin hcoin => ?_⟩
            exact ⟨output, by simp, (Option.some.inj hcoin).symm, by omega⟩
          next hlarger =>
            refine hnext _ ⟨hvalues, h.total, fun hnone => ?_, fun coin hcoin => ?_⟩
            · -- without a larger coin this one would have been taken
              have hvalue := hmax output List.mem_cons_self
              rw [hnone] at hlarger
              exact absurd hvalue hlarger
            · obtain ⟨out, hout, hrest⟩ := h.larger coin hcoin
              exact ⟨out, List.mem_append_left _ hout, hrest⟩

theorem Scanned.nil (nBound : ℤ) : Scanned nBound [] ⟨[], 0, none⟩ :=
  ⟨rfl, rfl, (fun _ out hout => by cases hout), (fun coin hcoin => by cases hcoin)⟩

theorem Scanned.mem {nBound : ℤ} {s : Scan} (h : Scanned nBound outs s)
    {coin : Coin} (hcoin : coin ∈ s.vValue) : ∃ out ∈ outs, coin = coinOf out := by
  rw [h.values] at hcoin
  obtain ⟨out, hout, rfl⟩ := List.mem_map.mp hcoin
  exact ⟨out, (List.mem_filter.mp hout).1, rfl⟩

theorem Scanned.nodup {nBound : ℤ} {s : Scan} (h : Scanned nBound outs s)
    (hnodup : (outs.map COutput.key).Nodup) : (s.vValue.map Prod.snd).Nodup := by
  rw [h.values, List.map_map]
  exact hnodup.sublist (List.filter_sublist.map COutput.key)

theorem Scanned.total_eq {nBound : ℤ} {s : Scan} (h : Scanned nBound outs s)
    (hnone : s.coinLowestLarger = none) : s.nTotalLower = totalValue outs := by
  have hall : (outs.filter fun out => out.nValue < nBound) = outs :=
    List.filter_eq_self.mpr fun out hout => decide_eq_true (h.lower hnone out hout)
  rw [h.total, h.values, hall, List.map_map]
  rfl

/-! ### The subset sum -/

theorem solve_valid (hfits : req.nTargetValue + MIN_CHANGE < 2 ^ 63) {s : Scan}
    (h : Scanned (req.nTargetValue + MIN_CHANGE) outs s) (hnodup : (outs.map COutput.key).Nodup)
    (hlarge : req.nTargetValue < s.nTotalLower) (bits : ℕ → ℕ → ℕ → Bool) :
    ∃ r, solve req bits s = .ok r ∧ Valid req outs r := by
  have hperm := List.mergeSort_perm s.vValue fun a b => decide (b.1 ≤ a.1)
  have hchange : 0 < MIN_CHANGE := by decide
  unfold solve
  dsimp only
  generalize s.vValue.mergeSort (fun a b => decide (b.1 ≤ a.1)) = vValue at hperm ⊢
  have htotal : s.nTotalLower = (vValue.map Prod.fst).sum := by
    rw [h.total]
    exact (hperm.map Prod.fst).sum_eq.symm
  have hdistinct : (vValue.map Prod.snd).Nodup :=
    (hperm.map Prod.snd).nodup_iff.mpr (h.nodup hnodup)
  -- marked coins that cover the target make a selection
  have hpicked : ∀ best : List Bool × ℤ, best.2 = markedSum (vValue.map Prod.fst) best.1 →
      req.nTargetValue ≤ best.2 → Valid req outs (insertCoins (picked vValue best.1)) := by
    intro best hsum hle
    have hsub := picked_sublist vValue best.1
    refine insertCoins_valid (fun coin hcoin => ?_) (hdistinct.sublist (hsub.map Prod.snd)) ?_
    · exact h.mem (hperm.mem_iff.mp (hsub.subset hcoin))
    · rwa [← markedSum_eq, ← hsum]
  obtain ⟨best, hbest, hsum, hle⟩ : ∃ best, bestSubset req bits vValue s.nTotalLower = .ok best ∧
      best.2 = markedSum (vValue.map Prod.fst) best.1 ∧ req.nTargetValue ≤ best.2 := by
    have hfirst := approximateBestSubset_spec (bits 0) 1000 htotal hlarge.le
    unfold bestSubset
    dsimp only
    split
    next =>
      rw [addAmounts_bind hfits]
      split
      next hcovers =>
        have hsecond := approximateBestSubset_spec (bits 1) 1000 htotal hcovers
        exact ⟨_, rfl, hsecond.1, by omega⟩
      next => exact ⟨_, rfl, hfirst⟩
    next => exact ⟨_, rfl, hfirst⟩
  rw [hbest]
  cases hlowest : s.coinLowestLarger with
  | none => exact ⟨_, rfl, hpicked best hsum hle⟩
  | some coin =>
    obtain ⟨out, hout, rfl, hvalue⟩ := h.larger coin hlowest
    have hbigger : ∃ bigger, takeBigger req (coinOf out) best.2 = .ok bigger := by
      unfold takeBigger
      split
      next =>
        rw [addAmounts_bind hfits]
        exact ⟨_, rfl⟩
      next => exact ⟨_, rfl⟩
    obtain ⟨bigger, hbigger⟩ := hbigger
    show ∃ r, (takeBigger req (coinOf out) best.2 >>= fun bigger =>
      if bigger = true then Except.ok (insertCoins [coinOf out])
      else Except.ok (insertCoins (picked vValue best.1))) = .ok r ∧ _
    rw [hbigger]
    cases bigger with
    | true => exact ⟨_, rfl, insertCoins_single hout (by omega)⟩
    | false => exact ⟨_, rfl, hpicked best hsum hle⟩

/-! ### The two looks -/

variable (req) in
/-- How a look at the outputs ends, other than with a next one. -/
inductive Decides (outs : List COutput) : Selection ⊕ Scan → Prop
  | done {r : Selection} : Valid req outs r → Decides outs (.inl r)
  | solve {s : Scan} : Scanned (req.nTargetValue + MIN_CHANGE) outs s →
      req.nTargetValue < s.nTotalLower → Decides outs (.inr s)

theorem tryDenoms_cons (hfits : req.nTargetValue + MIN_CHANGE < 2 ^ 63) {vCoins : List COutput}
    (hmax : ∀ out ∈ vCoins, out.nValue < 2 ^ 63 - 1) (hnodup : (vCoins.map COutput.key).Nodup)
    (tryDenom : ℕ) (rest : List ℕ) (s : Scan) (hnone : s.coinLowestLarger = none) :
    (∃ d, tryDenoms req vCoins (tryDenom :: rest) s = .ok d ∧
      Decides req (vCoins.filter (accepted req tryDenom)) d) ∨
    totalValue (vCoins.filter (accepted req tryDenom)) < req.nTargetValue ∧
      ∃ s', s'.coinLowestLarger = none ∧ tryDenoms req vCoins (tryDenom :: rest) s =
        if tryDenom = 0 then tryDenoms req vCoins rest s' else .ok (.inl ⟨false, ∅, 0⟩) := by
  have hchange : 0 < MIN_CHANGE := by decide
  have hdistinct : ((vCoins.filter (accepted req tryDenom)).map COutput.key).Nodup :=
    hnodup.sublist (List.filter_sublist.map COutput.key)
  rw [tryDenoms]
  have hstart : ({ s with vValue := [], nTotalLower := 0 } : Scan) = ⟨[], 0, none⟩ := by rw [hnone]
  rw [hstart]
  rcases scan_spec hfits tryDenom hmax (Scanned.nil _) with
    ⟨out, hout, hexact, hscan⟩ | ⟨s', hscan, hs'⟩
  · rw [hscan]
    exact Or.inl ⟨_, rfl, .done (insertCoins_single hout hexact.ge)⟩
  · rw [hscan]
    rw [List.nil_append] at hs'
    show (∃ d, (if s'.nTotalLower = req.nTargetValue then _ else _) = _ ∧ _) ∨ _ ∧ ∃ _, _ ∧
      (if s'.nTotalLower = req.nTargetValue then _ else _) = _
    by_cases heq : s'.nTotalLower = req.nTargetValue
    · rw [if_pos heq]
      refine Or.inl ⟨_, rfl, .done (insertCoins_valid (fun coin hcoin => hs'.mem hcoin)
        (hs'.nodup hdistinct) ?_)⟩
      rw [← hs'.total, heq]
    · rw [if_neg heq]
      by_cases hless : s'.nTotalLower < req.nTargetValue
      · rw [if_pos hless]
        cases hlowest : s'.coinLowestLarger with
        | some coin =>
          obtain ⟨out, hout, rfl, hvalue⟩ := hs'.larger coin hlowest
          exact Or.inl ⟨_, rfl, .done (insertCoins_single hout (by omega))⟩
        | none =>
          rw [hs'.total_eq hlowest] at hless
          exact Or.inr ⟨hless, s', hlowest, rfl⟩
      · rw [if_neg hless]
        exact Or.inl ⟨_, rfl, .solve hs' (by omega)⟩

theorem scan_none : ∀ {vCoins : List COutput} {s : Scan},
    (∀ out ∈ vCoins, accepted req tryDenom out = false) →
      scan req tryDenom vCoins s = .ok (.inr s) := by
  intro vCoins
  induction vCoins with
  | nil =>
    intro s _
    rfl
  | cons output vCoins ih =>
    intro s h
    rw [scan_skip (h output List.mem_cons_self)]
    exact ih fun out hout => h out (List.mem_cons_of_mem output hout)

theorem scan_overflow (hover : 2 ^ 63 ≤ req.nTargetValue + MIN_CHANGE) :
    ∀ {vCoins : List COutput} {s : Scan}, (∀ out ∈ vCoins, out.nValue ≠ req.nTargetValue) →
      (∃ out ∈ vCoins, accepted req tryDenom out = true) →
        scan req tryDenom vCoins s = .error .overflow := by
  intro vCoins
  induction vCoins with
  | nil =>
    rintro s _ ⟨out, hout, -⟩
    cases hout
  | cons output vCoins ih =>
    intro s hne hexists
    cases haccepted : accepted req tryDenom output with
    | true =>
      rw [scan_accept haccepted, if_neg (hne output List.mem_cons_self), addAmounts_overflow hover]
    | false =>
      rw [scan_skip haccepted]
      refine ih (fun out hout => hne out (List.mem_cons_of_mem output hout)) ?_
      obtain ⟨out, hout, hyes⟩ := hexists
      rcases List.mem_cons.mp hout with rfl | hout
      · exact absurd (haccepted.symm.trans hyes) (by decide)
      · exact ⟨out, hout, hyes⟩

/-! ### The selection -/

/-- The outputs that may be spent without touching mixed coins. -/
def eligibleNonDenom (req : Request) (out : COutput) : Bool :=
  eligible req out && !isDenominatedAmount out.nValue

/-- **What a selection promises**: it is found if the coins suffice; then it is made of them,
covers the target, and has denominated coins only if the others do not suffice; else it is empty. -/
def Promised (req : Request) (vCoins : List COutput) (result : Except Fault Selection) : Prop :=
  ∃ r, result = .ok r ∧
    (r.found = true ↔ req.nTargetValue ≤ totalValue (vCoins.filter (eligible req))) ∧
    (r.found = true → Valid req (vCoins.filter (eligible req)) r ∧
      ∀ c ∈ r.setCoinsRet, isDenominatedAmount (valueOf c) = true →
        totalValue (vCoins.filter (eligibleNonDenom req)) < req.nTargetValue) ∧
    (r.found = false → r.setCoinsRet = ∅ ∧ r.nValueRet = 0)

theorem accepted_zero : accepted req 0 = eligibleNonDenom req := by
  funext out
  simp [accepted, eligibleNonDenom]

theorem accepted_one : accepted req 1 = eligible req := by
  funext out
  simp [accepted]

theorem total_filter {vCoins vCoins' : List COutput} (h : vCoins'.Perm vCoins) (p : COutput → Bool) :
    totalValue (vCoins'.filter p) = totalValue (vCoins.filter p) :=
  ((h.filter p).map COutput.nValue).sum_eq

section

variable {vCoins : List COutput}

theorem promised_of_valid {r : Selection} {p : COutput → Bool}
    (hr : Valid req (vCoins.filter p) r) (hp : ∀ out, p out = true → eligible req out = true)
    (hdenom : ∀ c ∈ r.setCoinsRet, isDenominatedAmount (valueOf c) = true →
      totalValue (vCoins.filter (eligibleNonDenom req)) < req.nTargetValue)
    (hnodup : (vCoins.map COutput.key).Nodup) (hpos : ∀ out ∈ vCoins, 0 < out.nValue) :
    Promised req vCoins (.ok r) := by
  have hvalid : Valid req (vCoins.filter (eligible req)) r := by
    refine hr.mono fun out hout => ?_
    obtain ⟨hmem, hout⟩ := List.mem_filter.mp hout
    exact List.mem_filter.mpr ⟨hmem, hp out hout⟩
  have hle := hvalid.le_total (hnodup.sublist (List.filter_sublist.map COutput.key))
    fun out hout => hpos out (List.mem_filter.mp hout).1
  refine ⟨r, rfl, ⟨fun _ => hle, fun _ => hvalid.found⟩, fun _ => ⟨hvalid, hdenom⟩, fun hfalse => ?_⟩
  rw [hvalid.found] at hfalse
  cases hfalse

theorem Decides.promised (hfits : req.nTargetValue + MIN_CHANGE < 2 ^ 63) {ordered : List COutput}
    (hperm : ordered.Perm vCoins) {p : COutput → Bool} {d : Selection ⊕ Scan}
    (h : Decides req (ordered.filter p) d) (bits : ℕ → ℕ → ℕ → Bool)
    (hp : ∀ out, p out = true → eligible req out = true)
    (hdenom : ∀ out, p out = true → isDenominatedAmount out.nValue = true →
      totalValue (vCoins.filter (eligibleNonDenom req)) < req.nTargetValue)
    (hnodup : (vCoins.map COutput.key).Nodup) (hpos : ∀ out ∈ vCoins, 0 < out.nValue) :
    Promised req vCoins (d.elim .ok (CoinSelection.solve req bits)) := by
  have hfinish : ∀ r, Valid req (ordered.filter p) r → Promised req vCoins (.ok r) := by
    intro r hr
    have hr' : Valid req (vCoins.filter p) r :=
      hr.mono fun out hout => (hperm.filter p).mem_iff.mp hout
    refine promised_of_valid hr' hp (fun c hc hden => ?_) hnodup hpos
    obtain ⟨out, hout, rfl⟩ := hr'.coins c hc
    exact hdenom out (List.mem_filter.mp hout).2 hden
  cases h with
  | done hr => exact hfinish _ hr
  | solve hs hlarge =>
    have hdistinct : ((ordered.filter p).map COutput.key).Nodup :=
      ((hperm.map COutput.key).nodup_iff.mpr hnodup).sublist (List.filter_sublist.map COutput.key)
    obtain ⟨r, hsolve, hr⟩ := solve_valid hfits hs hdistinct hlarge bits
    show Promised req vCoins (CoinSelection.solve req bits _)
    rw [hsolve]
    exact hfinish r hr

theorem ordered_perm (draws : Draws) (vCoins : List COutput) :
    ((draws.shuffle vCoins).mergeSort fun a b => !lessThenDenom b a).Perm vCoins :=
  (List.mergeSort_perm _ _).trans (draws.perm vCoins)

theorem promised_of_fits (hfits : req.nTargetValue + MIN_CHANGE < 2 ^ 63) (draws : Draws)
    (hmax : ∀ out ∈ vCoins, out.nValue < 2 ^ 63 - 1) (hnodup : (vCoins.map COutput.key).Nodup)
    (hpos : ∀ out ∈ vCoins, 0 < out.nValue) :
    Promised req vCoins (selectCoinsMinConf req draws vCoins) := by
  have hperm := ordered_perm draws vCoins
  unfold selectCoinsMinConf
  dsimp only
  generalize (draws.shuffle vCoins).mergeSort (fun a b => !lessThenDenom b a) = ordered at hperm ⊢
  have hmax' : ∀ out ∈ ordered, out.nValue < 2 ^ 63 - 1 := fun out hout => hmax out (hperm.mem_iff.mp hout)
  have hnodup' : (ordered.map COutput.key).Nodup := (hperm.map COutput.key).nodup_iff.mpr hnodup
  rcases tryDenoms_cons hfits hmax' hnodup' 0 [1] ⟨[], 0, none⟩ rfl with
    ⟨d, hd, hdecides⟩ | ⟨hless, s', hnone, hd⟩
  · rw [hd]
    refine hdecides.promised hfits hperm draws.bits (fun out hout => ?_) (fun out hout hden => ?_)
      hnodup hpos
    · exact (Bool.and_eq_true _ _ ▸ hout).1
    · rw [accepted_zero, eligibleNonDenom, hden, Bool.not_true, Bool.and_false] at hout
      cases hout
  · rw [accepted_zero, total_filter hperm] at hless
    rw [if_pos rfl] at hd
    rw [hd]
    rcases tryDenoms_cons hfits hmax' hnodup' 1 [] s' hnone with
      ⟨d, hd, hdecides⟩ | ⟨hless', s'', -, hd⟩
    · rw [hd]
      exact hdecides.promised hfits hperm draws.bits (fun out hout => by rwa [accepted_one] at hout)
        (fun _ _ _ => hless) hnodup hpos
    · rw [accepted_one, total_filter hperm] at hless'
      rw [hd]
      refine ⟨⟨false, ∅, 0⟩, rfl, ⟨(fun hfalse => by cases hfalse), fun hle => ?_⟩,
        (fun hfalse => by cases hfalse), fun _ => ⟨rfl, rfl⟩⟩
      omega

theorem promised_iff_of_overflow (hover : 2 ^ 63 ≤ req.nTargetValue + MIN_CHANGE) (draws : Draws)
    (hne : ∀ out ∈ vCoins, out.nValue < 2 ^ 62) :
    Promised req vCoins (selectCoinsMinConf req draws vCoins) ↔
      ∀ out ∈ vCoins, eligible req out = false := by
  have hperm := ordered_perm draws vCoins
  have hchange : MIN_CHANGE = 1000000 := rfl
  unfold selectCoinsMinConf
  dsimp only
  generalize (draws.shuffle vCoins).mergeSort (fun a b => !lessThenDenom b a) = ordered at hperm ⊢
  have hne' : ∀ out ∈ ordered, out.nValue ≠ req.nTargetValue := by
    intro out hout heq
    have hlt := hne out (hperm.mem_iff.mp hout)
    omega
  -- a look that finds nothing leaves the sum at 0
  have hnext : ∀ tryDenom rest, (∀ out ∈ ordered, accepted req tryDenom out = false) →
      tryDenoms req ordered (tryDenom :: rest) ⟨[], 0, none⟩ =
        if tryDenom = 0 then tryDenoms req ordered rest ⟨[], 0, none⟩
        else .ok (.inl ⟨false, ∅, 0⟩) := by
    intro tryDenom rest hnone
    rw [tryDenoms, scan_none hnone]
    show (if (0 : ℤ) = req.nTargetValue then _ else _) = _
    rw [if_neg (by omega)]
    exact if_pos (show (0 : ℤ) < req.nTargetValue by omega)
  have hstop : ∀ tryDenom rest, (∃ out ∈ ordered, accepted req tryDenom out = true) →
      tryDenoms req ordered (tryDenom :: rest) ⟨[], 0, none⟩ = .error .overflow := by
    intro tryDenom rest hexists
    rw [tryDenoms, scan_overflow hover hne' hexists]
    rfl
  have hfail : ¬ Promised req vCoins (.error .overflow) := by
    rintro ⟨r, hr, -⟩
    cases hr
  constructor
  · intro hpromised out hout
    by_contra hyes
    have hyes : eligible req out = true := by simpa using hyes
    have hexists : ∃ out ∈ ordered, accepted req 1 out = true :=
      ⟨out, hperm.mem_iff.mpr hout, by rwa [accepted_one]⟩
    refine hfail ?_
    by_cases hzero : ∃ out ∈ ordered, accepted req 0 out = true
    · rw [hstop 0 [1] hzero] at hpromised
      exact hpromised
    · have hnone : ∀ out ∈ ordered, accepted req 0 out = false := fun out hout => by
        simpa using fun hyes => hzero ⟨out, hout, hyes⟩
      rw [hnext 0 [1] hnone, if_pos rfl, hstop 1 [] hexists] at hpromised
      exact hpromised
  · intro hnone
    have hnone' : ∀ tryDenom, ∀ out ∈ ordered, accepted req tryDenom out = false := by
      intro tryDenom out hout
      rw [accepted, hnone out (hperm.mem_iff.mp hout)]
      rfl
    rw [hnext 0 [1] (hnone' 0), if_pos rfl, hnext 1 [] (hnone' 1), if_neg (by decide)]
    have hempty : vCoins.filter (eligible req) = [] :=
      List.filter_eq_nil_iff.mpr fun out hout => by rw [hnone out hout]; decide
    refine ⟨⟨false, ∅, 0⟩, rfl, ⟨(fun hfalse => by cases hfalse), fun hle => ?_⟩,
      (fun hfalse => by cases hfalse), fun _ => ⟨rfl, rfl⟩⟩
    rw [hempty] at hle
    have hzero : totalValue [] = 0 := rfl
    omega

/-- **Coin selection is complete and sufficient**, if and only if the target leaves room for
change or there is nothing to select from.  The best subset always has its sum and covers its
target. -/
theorem selectCoinsMinConf_iff (req : Request) (draws : Draws) (vCoins : List COutput)
    (_ : 0 < req.nTargetValue) (_ : req.nTargetValue < 2 ^ 63)
    (hnodup : (vCoins.map COutput.key).Nodup) (hpos : ∀ out ∈ vCoins, 0 < out.nValue)
    (htotal : totalValue vCoins < 2 ^ 62) :
    (Promised req vCoins (selectCoinsMinConf req draws vCoins) ↔
      req.nTargetValue + MIN_CHANGE < 2 ^ 63 ∨ ∀ out ∈ vCoins, eligible req out = false) ∧
      ∀ (bits : ℕ → ℕ → Bool) (vValue : List ℤ) (nTargetValue : ℤ) (iterations : ℕ),
        nTargetValue ≤ vValue.sum →
          (approximateBestSubset bits vValue vValue.sum nTargetValue iterations).2 =
            markedSum vValue
              (approximateBestSubset bits vValue vValue.sum nTargetValue iterations).1 ∧
          nTargetValue ≤ (approximateBestSubset bits vValue vValue.sum nTargetValue iterations).2 := by
  constructor
  · have hvalues : ∀ out ∈ vCoins, out.nValue < 2 ^ 62 := by
      intro out hout
      have hle : out.nValue ≤ totalValue vCoins := by
        refine List.single_le_sum (fun v hv => ?_) _ (List.mem_map_of_mem hout)
        obtain ⟨out', hout', rfl⟩ := List.mem_map.mp hv
        exact (hpos out' hout').le
      omega
    by_cases hfits : req.nTargetValue + MIN_CHANGE < 2 ^ 63
    · refine ⟨fun _ => Or.inl hfits, fun _ => promised_of_fits hfits draws (fun out hout => ?_)
        hnodup hpos⟩
      have hlt := hvalues out hout
      omega
    · rw [promised_iff_of_overflow (by omega) draws hvalues]
      exact ⟨Or.inr, fun h => h.resolve_left hfits⟩
  · intro bits vValue nTargetValue iterations hle
    exact approximateBestSubset_spec bits iterations rfl hle

def paying (hash : UInt256) (values : List ℤ) : CTransaction where
  hash := hash
  nVersion := 1
  vin := []
  vout := values.map fun v => CTxOut.of v []
  nLockTime := 0

/-- No bit is drawn, and the order is kept. -/
def noDraws : Draws where
  shuffle := id
  perm := fun vCoins => List.Perm.refl vCoins
  bits := fun _ _ _ => false

/-- Of 3 and 5 CENT the 7 CENT that are asked for need both. -/
theorem selectCoinsMinConf_iff_both :
    Promised ⟨fun _ => false, 7 * CENT, 1, 6⟩
        [⟨paying 1 [3 * CENT, 5 * CENT], 0, 6, true⟩, ⟨paying 1 [3 * CENT, 5 * CENT], 1, 6, true⟩]
        (selectCoinsMinConf ⟨fun _ => false, 7 * CENT, 1, 6⟩ noDraws
          [⟨paying 1 [3 * CENT, 5 * CENT], 0, 6, true⟩,
            ⟨paying 1 [3 * CENT, 5 * CENT], 1, 6, true⟩]) :=
  (selectCoinsMinConf_iff ⟨fun _ => false, 7 * CENT, 1, 6⟩ noDraws
    [⟨paying 1 [3 * CENT, 5 * CENT], 0, 6, true⟩, ⟨paying 1 [3 * CENT, 5 * CENT], 1, 6, true⟩]
    (by decide) (by decide) (by decide) (by decide) (by decide)).1.mpr (Or.inl (by decide))

/-- The largest amount is asked for, and there is a coin: nothing is promised. -/
theorem largest_target :
    ¬ Promised ⟨fun _ => false, 2 ^ 63 - 1, 1, 6⟩ [⟨paying 1 [1], 0, 6, true⟩]
      (selectCoinsMinConf ⟨fun _ => false, 2 ^ 63 - 1, 1, 6⟩ noDraws
        [⟨paying 1 [1], 0, 6, true⟩]) := by
  rintro ⟨r, hr, -⟩
  have hover : selectCoinsMinConf ⟨fun _ => false, 2 ^ 63 - 1, 1, 6⟩ noDraws
      [⟨paying 1 [1], 0, 6, true⟩] = .error .overflow := by
    decide +kernel
  rw [hover] at hr
  cases hr

end

end CoinSelection

end Stonecoin
