/-
The adjusted time (`timedata.h`, `timedata.cpp`): `CMedianFilter` and `AddTimeData`.

A sample is a signed number of 64 bits.  `none` is a failed assertion, or an operation on such
numbers that overflows.

  * `run_iff`: when the offset keeps its bounds.
-/
import Mathlib.Data.Finset.Card
import Mathlib.Data.Int.Order.Basic
import Stonecoin.Medians
import Stonecoin.ScriptNum

namespace Stonecoin

/-- `abs64`: the negation of the least number overflows. -/
def abs64 (n : ℤ) : Option ℤ := if 0 ≤ n then some n else if n = INT64_MIN then none else some (-n)

/-! ### `CMedianFilter` -/

structure CMedianFilter where
  vValues : List ℤ
  vSorted : List ℤ
  nSize : ℕ

namespace CMedianFilter

/-- The constructor. -/
def of (size : ℕ) (initial_value : ℤ) : CMedianFilter := ⟨[initial_value], [initial_value], size⟩

def input (f : CMedianFilter) (value : ℤ) : CMedianFilter :=
  let vValues := (if f.vValues.length = f.nSize then f.vValues.drop 1 else f.vValues) ++ [value]
  { f with vValues := vValues, vSorted := vValues.insertionSort (· ≤ ·) }

def median (f : CMedianFilter) : Option ℤ :=
  let size := f.vSorted.length
  if size = 0 then none
  else if size % 2 = 1 then some (f.vSorted.getD (size / 2) 0)
  else
    let sum := f.vSorted.getD (size / 2 - 1) 0 + f.vSorted.getD (size / 2) 0
    if INT64_MIN ≤ sum ∧ sum ≤ INT64_MAX then some (sum.tdiv 2) else none

def size (f : CMedianFilter) : ℕ := f.vValues.length

def sorted (f : CMedianFilter) : List ℤ := f.vSorted

end CMedianFilter

/-! ### `AddTimeData` -/

def BITCOIN_TIMEDATA_MAX_SAMPLES : ℕ := 200

variable {CNetAddr : Type} [DecidableEq CNetAddr]

/-- The variables of the file and the static ones of the function. -/
structure TimeData (CNetAddr : Type) where
  nTimeOffset : ℤ
  setKnown : Finset CNetAddr
  vTimeOffsets : CMedianFilter
  fDone : Bool
  strMiscWarning : String

namespace TimeData

def start : TimeData CNetAddr := ⟨0, ∅, .of BITCOIN_TIMEDATA_MAX_SAMPLES 0, false, ""⟩

def strMessage : String :=
  "Please check that your computer's date and time are correct! If your clock is wrong Stone Core will not work properly."

/-- An offset within five minutes that is not 0. -/
def matchesOurs (nOffset : ℤ) : Option Bool :=
  (abs64 nOffset).map fun n => nOffset ≠ 0 && n < 5 * 60

/-- `fMatch`, after the loop over the samples.  The second condition is not looked at for 0. -/
def fMatch : List ℤ → Option Bool
  | [] => some false
  | nOffset :: vSorted =>
    if nOffset = 0 then fMatch vSorted
    else (matchesOurs nOffset).bind fun b => (fMatch vSorted).map fun b' => b || b'

/-- The median is too far away. -/
def reject (s : TimeData CNetAddr) : Option (TimeData CNetAddr) :=
  if s.fDone then some { s with nTimeOffset := 0 }
  else (fMatch s.vTimeOffsets.sorted).map fun b =>
    if b then { s with nTimeOffset := 0 }
    else { s with nTimeOffset := 0, fDone := true, strMiscWarning := strMessage }

/-- The offset is computed anew. -/
def update (s : TimeData CNetAddr) : Option (TimeData CNetAddr) :=
  s.vTimeOffsets.median.bind fun nMedian => (abs64 nMedian).bind fun n =>
    if n < 70 * 60 then some { s with nTimeOffset := nMedian } else s.reject

def addTimeData (s : TimeData CNetAddr) (ip : CNetAddr) (nOffsetSample : ℤ) :
    Option (TimeData CNetAddr) :=
  if s.setKnown.card = BITCOIN_TIMEDATA_MAX_SAMPLES then some s
  else if ip ∈ s.setKnown then some s
  else
    let s := { s with
      setKnown := insert ip s.setKnown
      vTimeOffsets := s.vTimeOffsets.input nOffsetSample }
    if 5 ≤ s.vTimeOffsets.size ∧ s.vTimeOffsets.size % 2 = 1 then s.update else some s

/-- The calls, one after the other. -/
def run : List (CNetAddr × ℤ) → TimeData CNetAddr → Option (TimeData CNetAddr)
  | [], s => some s
  | (ip, nOffsetSample) :: calls, s => (s.addTimeData ip nOffsetSample).bind (run calls)

/-! ### What is promised -/

/-- The first sample of each address, with the addresses. -/
def firstSamples (calls : List (CNetAddr × ℤ)) : Finset CNetAddr × List ℤ :=
  calls.foldl (fun r call => if call.1 ∈ r.1 then r else (insert call.1 r.1, r.2 ++ [call.2]))
    (∅, [])

def taken (calls : List (CNetAddr × ℤ)) : List ℤ := (firstSamples calls).2

/-- **The clock is shifted within bounds only.** -/
structure Promised (calls : List (CNetAddr × ℤ)) (s : TimeData CNetAddr) : Prop where
  lower : -(70 * 60) < s.nTimeOffset
  upper : s.nTimeOffset < 70 * 60
  again : ∀ call ∈ calls, ∀ nOffsetSample, s.addTimeData call.1 nOffsetSample = some s
  majority : ∀ a b, a ≤ 0 → 0 ≤ b → (taken calls).length < 199 →
    (0 :: taken calls).length < 2 * (0 :: taken calls).countP (fun n => a ≤ n ∧ n ≤ b) →
      a ≤ s.nTimeOffset ∧ s.nTimeOffset ≤ b

/-- The least number is negated: it is the median, or it is a sample while the median is too far
away and the warning has not been given. -/
def Negates (fDone : Bool) (vValues : List ℤ) : Prop :=
  Medians.median 0 vValues = INT64_MIN ∨
    fDone = false ∧ INT64_MIN ∈ vValues ∧
      ¬ (-(70 * 60) < Medians.median 0 vValues ∧ Medians.median 0 vValues < 70 * 60)

/-- A call negates the least number. -/
def Overflows (s : TimeData CNetAddr) (ip : CNetAddr) (nOffsetSample : ℤ) : Prop :=
  let vValues := (s.vTimeOffsets.input nOffsetSample).vValues
  s.setKnown.card ≠ BITCOIN_TIMEDATA_MAX_SAMPLES ∧ ip ∉ s.setKnown ∧
    5 ≤ vValues.length ∧ vValues.length % 2 = 1 ∧ Negates s.fDone vValues

/-- None of the calls does. -/
def Safe : List (CNetAddr × ℤ) → TimeData CNetAddr → Prop
  | [], _ => True
  | (ip, nOffsetSample) :: calls, s => ¬ s.Overflows ip nOffsetSample ∧
      ∀ s', s.addTimeData ip nOffsetSample = some s' → Safe calls s'

/-! ### The median -/

theorem abs64_eq_none {n : ℤ} : abs64 n = none ↔ n = INT64_MIN := by
  have hmin : INT64_MIN < 0 := by decide
  rw [abs64]
  split
  · simp only [reduceCtorEq, false_iff]
    omega
  · split
    next h => simp [h]
    next h => simp [h]

theorem abs64_some {n m : ℤ} (h : abs64 n = some m) (k : ℤ) : m < k ↔ -k < n ∧ n < k := by
  rw [abs64] at h
  split at h
  · obtain rfl := Option.some.inj h
    omega
  · split at h
    · cases h
    · obtain rfl := Option.some.inj h
      omega

theorem fMatch_eq_none : ∀ {vSorted : List ℤ}, fMatch vSorted = none ↔ INT64_MIN ∈ vSorted := by
  have hmin : INT64_MIN ≠ 0 := by decide
  intro vSorted
  induction vSorted with
  | nil => simp [fMatch]
  | cons nOffset vSorted ih =>
    rw [fMatch, List.mem_cons]
    by_cases hzero : nOffset = 0
    · rw [if_pos hzero, ih, hzero]
      simp [hmin]
    · rw [if_neg hzero, matchesOurs]
      cases habs : abs64 nOffset with
      | none => simp [abs64_eq_none.mp habs]
      | some n =>
        have hne : INT64_MIN ≠ nOffset := by
          intro heq
          rw [abs64_eq_none.mpr heq.symm] at habs
          cases habs
        simp [hne, ih]

theorem median_eq {f : CMedianFilter} (hsorted : f.vSorted = f.vValues.insertionSort (· ≤ ·))
    (hodd : f.vValues.length % 2 = 1) : f.median = some (Medians.median 0 f.vValues) := by
  have hlength : f.vSorted.length = f.vValues.length := by
    rw [hsorted, List.length_insertionSort]
  rw [CMedianFilter.median]
  dsimp only
  rw [hlength, if_neg (by omega), if_pos hodd, hsorted]
  rfl

variable {s : TimeData CNetAddr}

omit [DecidableEq CNetAddr] in
theorem update_cases
    (hsorted : s.vTimeOffsets.vSorted = s.vTimeOffsets.vValues.insertionSort (· ≤ ·))
    (hodd : s.vTimeOffsets.vValues.length % 2 = 1) :
    (s.update = none ∧ Negates s.fDone s.vTimeOffsets.vValues) ∨
      (¬ Negates s.fDone s.vTimeOffsets.vValues ∧
        ∃ s', s.update = some s' ∧ s'.setKnown = s.setKnown ∧ s'.vTimeOffsets = s.vTimeOffsets ∧
          -(70 * 60) < s'.nTimeOffset ∧ s'.nTimeOffset < 70 * 60 ∧
            (s'.nTimeOffset = Medians.median 0 s.vTimeOffsets.vValues ∨ s'.nTimeOffset = 0)) := by
  have hzero : (-(70 * 60) : ℤ) < 0 ∧ (0 : ℤ) < 70 * 60 := by decide
  rw [Negates]
  generalize hm : Medians.median 0 s.vTimeOffsets.vValues = m
  have hmedian : s.vTimeOffsets.median = some m := hm ▸ median_eq hsorted hodd
  rw [update, hmedian, Option.bind_some]
  cases habs : abs64 m with
  | none => exact Or.inl ⟨rfl, Or.inl (abs64_eq_none.mp habs)⟩
  | some n =>
    have hne : m ≠ INT64_MIN := by
      intro heq
      rw [abs64_eq_none.mpr heq] at habs
      cases habs
    have hbounds := abs64_some habs (70 * 60)
    rw [Option.bind_some]
    by_cases hn : n < 70 * 60
    · rw [if_pos hn]
      obtain ⟨hlow, hup⟩ := hbounds.mp hn
      refine Or.inr ⟨?_, _, rfl, rfl, rfl, hlow, hup, Or.inl rfl⟩
      rintro (heq | ⟨-, -, hfar⟩)
      · exact hne heq
      · exact hfar ⟨hlow, hup⟩
    · rw [if_neg hn, reject]
      by_cases hdone : s.fDone = true
      · rw [if_pos hdone]
        refine Or.inr ⟨?_, _, rfl, rfl, rfl, hzero.1, hzero.2, Or.inr rfl⟩
        rintro (heq | ⟨hnot, -⟩)
        · exact hne heq
        · exact absurd (hnot.symm.trans hdone) (by decide)
      · rw [if_neg hdone]
        have hmem : INT64_MIN ∈ s.vTimeOffsets.sorted ↔ INT64_MIN ∈ s.vTimeOffsets.vValues := by
          rw [CMedianFilter.sorted, hsorted, List.mem_insertionSort]
        cases hmatch : fMatch s.vTimeOffsets.sorted with
        | none =>
          exact Or.inl ⟨rfl, Or.inr ⟨Bool.eq_false_iff.mpr hdone,
            hmem.mp (fMatch_eq_none.mp hmatch), fun h => hn (hbounds.mpr h)⟩⟩
        | some b =>
          have hout : INT64_MIN ∉ s.vTimeOffsets.vValues := by
            intro hin
            rw [fMatch_eq_none.mpr (hmem.mpr hin)] at hmatch
            cases hmatch
          refine Or.inr ⟨?_, ?_⟩
          · rintro (heq | ⟨-, hin, -⟩)
            · exact hne heq
            · exact hout hin
          · rw [Option.map_some]
            cases b with
            | true => exact ⟨_, rfl, rfl, rfl, hzero.1, hzero.2, Or.inr rfl⟩
            | false => exact ⟨_, rfl, rfl, rfl, hzero.1, hzero.2, Or.inr rfl⟩

/-! ### The calls -/

structure Kept (calls : List (CNetAddr × ℤ)) (s : TimeData CNetAddr) : Prop where
  sorted : s.vTimeOffsets.vSorted = s.vTimeOffsets.vValues.insertionSort (· ≤ ·)
  nSize : s.vTimeOffsets.nSize = BITCOIN_TIMEDATA_MAX_SAMPLES
  card : s.setKnown.card ≤ BITCOIN_TIMEDATA_MAX_SAMPLES
  length : s.vTimeOffsets.vValues.length = min 200 (s.setKnown.card + 1)
  known : s.setKnown.card = BITCOIN_TIMEDATA_MAX_SAMPLES ∨ s.setKnown = (firstSamples calls).1
  sub : s.setKnown ⊆ (firstSamples calls).1
  values : s.setKnown.card < 200 → s.vTimeOffsets.vValues = 0 :: taken calls
  lower : -(70 * 60) < s.nTimeOffset
  upper : s.nTimeOffset < 70 * 60
  few : s.vTimeOffsets.vValues.length < 5 → s.nTimeOffset = 0
  majority : ∀ a b, a ≤ 0 → 0 ≤ b → s.setKnown.card < 199 →
    s.vTimeOffsets.vValues.length <
      2 * s.vTimeOffsets.vValues.countP (fun n => a ≤ n ∧ n ≤ b) →
        a ≤ s.nTimeOffset ∧ s.nTimeOffset ≤ b

theorem firstSamples_append (calls : List (CNetAddr × ℤ)) (ip : CNetAddr) (n : ℤ) :
    firstSamples (calls ++ [(ip, n)]) =
      if ip ∈ (firstSamples calls).1 then firstSamples calls
      else (insert ip (firstSamples calls).1, (firstSamples calls).2 ++ [n]) := by
  rw [firstSamples, List.foldl_append]
  rfl

variable {calls : List (CNetAddr × ℤ)}

theorem mem_firstSamples {ip : CNetAddr} :
    ip ∈ (firstSamples calls).1 ↔ ∃ call ∈ calls, call.1 = ip := by
  induction calls using List.reverseRecOn with
  | nil => simp [firstSamples]
  | append_singleton calls call ih =>
    obtain ⟨ip', n⟩ := call
    rw [firstSamples_append]
    split
    next hin =>
      rw [ih]
      constructor
      · rintro ⟨call, hcall, rfl⟩
        exact ⟨call, List.mem_append_left _ hcall, rfl⟩
      · rintro ⟨call, hcall, rfl⟩
        rcases List.mem_append.mp hcall with hcall | hcall
        · exact ⟨call, hcall, rfl⟩
        · obtain rfl := List.mem_singleton.mp hcall
          exact ih.mp hin
    next hout => simp [ih, or_comm, eq_comm]

theorem card_firstSamples (calls : List (CNetAddr × ℤ)) :
    (firstSamples calls).1.card = (taken calls).length := by
  induction calls using List.reverseRecOn with
  | nil => rfl
  | append_singleton calls call ih =>
    obtain ⟨ip, n⟩ := call
    rw [taken, firstSamples_append]
    split
    next => exact ih
    next hout =>
      rw [Finset.card_insert_of_notMem hout, List.length_append, ih]
      rfl

theorem kept_start : Kept [] (start : TimeData CNetAddr) where
  sorted := rfl
  nSize := rfl
  card := Nat.zero_le _
  length := rfl
  known := Or.inr rfl
  sub := Finset.Subset.refl _
  values := fun _ => rfl
  lower := show (-(70 * 60) : ℤ) < 0 by decide
  upper := show (0 : ℤ) < 70 * 60 by decide
  few := fun _ => rfl
  majority := fun _ _ ha hb _ _ => ⟨ha, hb⟩

theorem Kept.ignore (h : Kept calls s)
    {ip : CNetAddr} (n : ℤ)
    (hold : s.setKnown.card = BITCOIN_TIMEDATA_MAX_SAMPLES ∨ ip ∈ s.setKnown) :
    s.addTimeData ip n = some s ∧ Kept (calls ++ [(ip, n)]) s := by
  have hsame : s.setKnown.card < 200 → firstSamples (calls ++ [(ip, n)]) = firstSamples calls := by
    intro hcard
    have hroom : s.setKnown.card ≠ BITCOIN_TIMEDATA_MAX_SAMPLES := hcard.ne
    rw [firstSamples_append, if_pos]
    rw [← h.known.resolve_left hroom]
    exact hold.resolve_left hroom
  refine ⟨?_, h.sorted, h.nSize, h.card, h.length, ?_, ?_, fun hcard => ?_, h.lower, h.upper,
    h.few, h.majority⟩
  · rw [addTimeData]
    by_cases hfull : s.setKnown.card = BITCOIN_TIMEDATA_MAX_SAMPLES
    · rw [if_pos hfull]
    · rw [if_neg hfull, if_pos (hold.resolve_left hfull)]
  · rcases Nat.lt_or_ge s.setKnown.card 200 with hcard | hcard
    · rw [hsame hcard]
      exact h.known
    · exact Or.inl (le_antisymm h.card hcard)
  · intro ip' hip'
    obtain ⟨call, hcall, rfl⟩ := mem_firstSamples.mp (h.sub hip')
    exact mem_firstSamples.mpr ⟨call, List.mem_append_left _ hcall, rfl⟩
  · rw [taken, hsame hcard]
    exact h.values hcard

/-- The sample of a new address, before the offset is looked at. -/
def withSample (s : TimeData CNetAddr) (ip : CNetAddr) (n : ℤ) : TimeData CNetAddr :=
  { s with setKnown := insert ip s.setKnown, vTimeOffsets := s.vTimeOffsets.input n }

theorem Kept.sample {s' : TimeData CNetAddr} (h : Kept calls s)
    {ip : CNetAddr} {n : ℤ} (hroom : s.setKnown.card ≠ BITCOIN_TIMEDATA_MAX_SAMPLES)
    (hnew : ip ∉ s.setKnown) (hknown : s'.setKnown = insert ip s.setKnown)
    (hvalues : s'.vTimeOffsets = s.vTimeOffsets.input n)
    (hlower : -(70 * 60) < s'.nTimeOffset) (hupper : s'.nTimeOffset < 70 * 60)
    (hfew : s'.vTimeOffsets.vValues.length < 5 → s'.nTimeOffset = 0)
    (hmajority : ∀ a b, a ≤ 0 → 0 ≤ b → s'.setKnown.card < 199 →
      s'.vTimeOffsets.vValues = s.vTimeOffsets.vValues ++ [n] →
      s'.vTimeOffsets.vValues.length <
        2 * s'.vTimeOffsets.vValues.countP (fun n => a ≤ n ∧ n ≤ b) →
          a ≤ s'.nTimeOffset ∧ s'.nTimeOffset ≤ b) :
    Kept (calls ++ [(ip, n)]) s' := by
  have hcard : s'.setKnown.card = s.setKnown.card + 1 := by
    rw [hknown, Finset.card_insert_of_notMem hnew]
  have hmax : s.setKnown.card ≤ 200 := h.card
  have hroom : s.setKnown.card ≠ 200 := hroom
  have hfirst : firstSamples (calls ++ [(ip, n)]) =
      (insert ip (firstSamples calls).1, taken calls ++ [n]) := by
    rw [firstSamples_append, if_neg, taken]
    rw [← h.known.resolve_left hroom]
    exact hnew
  have happend : s'.setKnown.card < 200 →
      s'.vTimeOffsets.vValues = s.vTimeOffsets.vValues ++ [n] := by
    intro hlt
    have hlength := h.length
    have hsize : s.vTimeOffsets.nSize = 200 := h.nSize
    rw [hvalues, CMedianFilter.input]
    dsimp only
    rw [if_neg (by omega)]
  constructor
  case sorted =>
    rw [hvalues]
    rfl
  case nSize =>
    rw [hvalues]
    exact h.nSize
  case card =>
    show s'.setKnown.card ≤ 200
    omega
  case length =>
    have hlength := h.length
    have hsize : s.vTimeOffsets.nSize = 200 := h.nSize
    rw [hvalues, CMedianFilter.input]
    dsimp only
    split
    · rw [List.length_append, List.length_drop, List.length_singleton]
      omega
    · rw [List.length_append, List.length_singleton]
      omega
  case known =>
    refine Or.inr ?_
    rw [hfirst, hknown, h.known.resolve_left hroom]
  case sub =>
    rw [hfirst, hknown]
    exact Finset.insert_subset_insert ip h.sub
  case values =>
    intro hlt
    rw [happend hlt, h.values (by omega)]
    show 0 :: (taken calls ++ [n]) = 0 :: (firstSamples (calls ++ [(ip, n)])).2
    rw [hfirst]
  case lower => exact hlower
  case upper => exact hupper
  case few => exact hfew
  case majority =>
    intro a b ha hb hlt hcount
    exact hmajority a b ha hb hlt (happend (by omega)) hcount

theorem Kept.call (h : Kept calls s)
    (ip : CNetAddr) (n : ℤ) :
    (s.addTimeData ip n = none ∧ s.Overflows ip n) ∨
      (¬ s.Overflows ip n ∧ ∃ s', s.addTimeData ip n = some s' ∧ Kept (calls ++ [(ip, n)]) s') := by
  by_cases hold : s.setKnown.card = BITCOIN_TIMEDATA_MAX_SAMPLES ∨ ip ∈ s.setKnown
  · refine Or.inr ⟨fun hover => ?_, s, h.ignore n hold⟩
    exact hold.elim hover.1 hover.2.1
  · obtain ⟨hroom, hnew⟩ := not_or.mp hold
    have hadd : s.addTimeData ip n = if 5 ≤ (s.withSample ip n).vTimeOffsets.size ∧
        (s.withSample ip n).vTimeOffsets.size % 2 = 1 then (s.withSample ip n).update
        else some (s.withSample ip n) := by
      rw [addTimeData, if_neg hroom, if_neg hnew]
      rfl
    rw [hadd]
    by_cases hodd : 5 ≤ (s.withSample ip n).vTimeOffsets.size ∧
        (s.withSample ip n).vTimeOffsets.size % 2 = 1
    · rw [if_pos hodd]
      rcases update_cases (s := s.withSample ip n) rfl hodd.2 with
        ⟨hnone, hnegates⟩ | ⟨hnegates, s', hsome, hknown, hvalues, hlower, hupper, hoffset⟩
      · exact Or.inl ⟨hnone, hroom, hnew, hodd.1, hodd.2, hnegates⟩
      · refine Or.inr ⟨fun hover => hnegates hover.2.2.2.2, s', hsome,
          h.sample hroom hnew hknown hvalues hlower hupper (fun hlt => ?_) fun a b ha hb _ _ hcount => ?_⟩
        · rw [hvalues] at hlt
          have hfive : 5 ≤ (s.withSample ip n).vTimeOffsets.vValues.length := hodd.1
          omega
        · rw [hvalues] at hcount
          rcases hoffset with hmedian | hzero
          · rw [hmedian]
            exact Medians.median_between 0 a b hcount
          · rw [hzero]
            exact ⟨ha, hb⟩
    · rw [if_neg hodd]
      have hfew : (s.withSample ip n).vTimeOffsets.vValues.length < 5 →
          (s.withSample ip n).nTimeOffset = 0 := by
        intro hlt
        refine h.few ?_
        have hgrows : s.vTimeOffsets.vValues.length ≤
            (s.withSample ip n).vTimeOffsets.vValues.length := by
          show _ ≤ (s.vTimeOffsets.input n).vValues.length
          rw [CMedianFilter.input]
          dsimp only
          split
          · rw [List.length_append, List.length_drop, List.length_singleton]
            omega
          · rw [List.length_append]
            omega
        omega
      refine Or.inr ⟨fun hover => hodd ⟨hover.2.2.1, hover.2.2.2.1⟩, _, rfl,
        h.sample hroom hnew rfl rfl h.lower h.upper hfew fun a b ha hb hcard happend hcount => ?_⟩
      by_cases hsmall : (s.withSample ip n).vTimeOffsets.vValues.length < 5
      · rw [hfew hsmall]
        exact ⟨ha, hb⟩
      · -- an even number: already before it more than half of the values were in the interval
        have heven : ¬ (s.withSample ip n).vTimeOffsets.vValues.length % 2 = 1 :=
          fun h => hodd ⟨Nat.not_lt.mp hsmall, h⟩
        have hsingle : ([n].countP fun n => a ≤ n ∧ n ≤ b) ≤ 1 := List.countP_le_length
        rw [happend, List.length_append, List.length_singleton] at heven
        rw [happend, List.length_append, List.length_singleton, List.countP_append] at hcount
        refine h.majority a b ha hb ?_ (by omega)
        have hinsert : (s.withSample ip n).setKnown.card = s.setKnown.card + 1 :=
          Finset.card_insert_of_notMem hnew
        omega

theorem Kept.run (calls : List (CNetAddr × ℤ)) : ∀ {before : List (CNetAddr × ℤ)}
    {s : TimeData CNetAddr}, Kept before s →
      (run calls s = none ∧ ¬ Safe calls s) ∨
        (Safe calls s ∧ ∃ s', run calls s = some s' ∧ Kept (before ++ calls) s') := by
  induction calls with
  | nil =>
    intro before s h
    exact Or.inr ⟨trivial, s, rfl, by rwa [List.append_nil]⟩
  | cons call calls ih =>
    intro before s h
    obtain ⟨ip, n⟩ := call
    rw [TimeData.run]
    rcases h.call ip n with ⟨hnone, hover⟩ | ⟨hover, s₁, hsome, h₁⟩
    · exact Or.inl ⟨by rw [hnone, Option.bind_none], fun hsafe => hsafe.1 hover⟩
    · rw [hsome, Option.bind_some]
      rcases ih h₁ with ⟨hnone, hunsafe⟩ | ⟨hsafe, s', hs', h'⟩
      · exact Or.inl ⟨hnone, fun hsafe => hunsafe (hsafe.2 s₁ hsome)⟩
      · refine Or.inr ⟨⟨hover, fun s₂ hs₂ => ?_⟩, s', hs', ?_⟩
        · obtain rfl := Option.some.inj (hsome.symm.trans hs₂)
          exact hsafe
        · rwa [List.append_assoc] at h'

theorem Kept.promised (h : Kept calls s) :
    Promised calls s := by
  refine ⟨h.lower, h.upper, fun call hcall n => (h.ignore n ?_).1, fun a b ha hb hfew hcount => ?_⟩
  · exact h.known.imp_right fun hknown => by
      rw [hknown]
      exact mem_firstSamples.mpr ⟨call, hcall, rfl⟩
  · have hcard := card_firstSamples calls
    have hroom : s.setKnown.card < 199 := (Finset.card_le_card h.sub).trans_lt (by omega)
    refine h.majority a b ha hb hroom ?_
    rw [h.values (by omega)]
    exact hcount

/-- **The clock is shifted within bounds**, if and only if no call negates the least number. -/
theorem run_iff (calls : List (CNetAddr × ℤ)) :
    (∃ s, run calls start = some s ∧ Promised calls s) ↔ Safe calls start := by
  rcases Kept.run calls kept_start with ⟨hnone, hunsafe⟩ | ⟨hsafe, s, hs, h⟩
  · constructor
    · rintro ⟨s, hs, -⟩
      rw [hnone] at hs
      cases hs
    · exact fun hsafe => absurd hsafe hunsafe
  · exact ⟨fun _ => hsafe, fun _ => ⟨s, hs, h.promised⟩⟩

/-- Four peers, three of which send the least number: it is the median, and `abs64` negates it. -/
theorem least_median : ¬ ∃ s : TimeData ℕ,
    run [(1, INT64_MIN), (2, INT64_MIN), (3, INT64_MIN), (4, 0)] start = some s ∧
      Promised [(1, INT64_MIN), (2, INT64_MIN), (3, INT64_MIN), (4, 0)] s := by
  rintro ⟨s, hs, -⟩
  have hnone : run [(1, INT64_MIN), (2, INT64_MIN), (3, INT64_MIN), (4, 0)]
      (start : TimeData ℕ) = none := by
    decide +kernel
  rw [hnone] at hs
  cases hs

end TimeData

end Stonecoin
