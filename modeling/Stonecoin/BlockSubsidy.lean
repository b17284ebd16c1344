/-
`GetBlockSubsidy` of `main.cpp` with the `int` of its loop, and the sum of all subsidies.

The yearly decline takes a tenth off, rounded down, so the subsidy ends at 9 and not at 0.
The sum is projected by the source to be about 26 million coins; it comes to more than that
with the first block and the post-mine, and to more than `MAX_MONEY`.

  * `subsidies_issued`: the subsidies of the main network, and their sums.
-/
import Stonecoin.FounderTips
import Stonecoin.Superblocks
import Mathlib.Algebra.BigOperators.Intervals
import Mathlib.Tactic.Ring

namespace Stonecoin.BlockSubsidy

def INT_MAX : ℤ := 2147483647

inductive Fault where
  | overflow
  | unfinished
deriving DecidableEq, Repr

/-- The sum of two values of type `int`. -/
def addInt (a b : ℤ) : Except Fault ℤ := if INT_MAX < a + b then .error .overflow else .ok (a + b)

/-- The loop of `GetBlockSubsidy`, with the number of passes it may still take. -/
def subsidyLoop (nSubsidyHalvingInterval nPrevHeight : ℤ) : ℕ → ℤ → ℤ → Except Fault ℤ
  | fuel, i, nSubsidy =>
    if i ≤ nPrevHeight then
      match fuel with
      | 0 => .error .unfinished
      | fuel + 1 => do
        let i ← addInt i nSubsidyHalvingInterval
        subsidyLoop nSubsidyHalvingInterval nPrevHeight fuel i (declineSubsidy nSubsidy)
    else .ok nSubsidy

def getBlockSubsidy (nSubsidyHalvingInterval : ℤ) (_nPrevBits : ℕ) (nPrevHeight : ℤ)
    (fSuperblockPartOnly : Bool) : Except Fault ℤ :=
  if nPrevHeight = 0 then .ok (500000 * COIN)
  else do
    -- `nPrevHeight + 1`
    let nHeight ← addInt nPrevHeight 1
    if nPrevHeight < 250 ∧ nHeight ≠ POST_MINE_HEIGHT then .ok COIN
    else if nHeight = POST_MINE_HEIGHT ∧ nPrevHeight < 250 then
      .ok (COIN * POST_MINE_VALUE + COIN)
    else
      let ret := if nHeight = POST_MINE_HEIGHT then COIN * POST_MINE_VALUE else 0
      let nSubsidy ←
        if nHeight ≠ POST_MINE_HEIGHT ∧ 250 ≤ nPrevHeight then
          subsidyLoop nSubsidyHalvingInterval nPrevHeight nPrevHeight.toNat
            nSubsidyHalvingInterval (10 * COIN)
        else .ok (10 * COIN)
      .ok (ret + if fSuperblockPartOnly then 0 else nSubsidy)

def mainSubsidy (nPrevBits : ℕ) (nPrevHeight : ℤ) : Except Fault ℤ :=
  getBlockSubsidy mainParams.nSubsidyHalvingInterval nPrevBits nPrevHeight false

/-- The sum of the subsidies for the first previous heights. -/
def minted (nPrevBits : ℕ → ℕ) : ℕ → Except Fault ℤ
  | 0 => .ok 0
  | n + 1 => do
    let sum ← minted nPrevBits n
    let nSubsidy ← mainSubsidy (nPrevBits n) n
    .ok (sum + nSubsidy)

/-! ### Sums over periods -/

theorem sum_range_div (g : ℕ → ℤ) {period : ℕ} (hperiod : 0 < period) (q : ℕ) {r : ℕ}
    (hr : r ≤ period) :
    ∑ h ∈ Finset.range (period * q + r), g (h / period) =
      period * ∑ k ∈ Finset.range q, g k + r * g q := by
  -- within one period
  have hpart : ∀ q r, r ≤ period → ∑ h ∈ Finset.range (period * q + r), g (h / period) =
      ∑ h ∈ Finset.range (period * q), g (h / period) + r * g q := by
    intro q r hr
    rw [Finset.sum_range_add]
    congr 1
    have hconst : ∀ x ∈ Finset.range r, g ((period * q + x) / period) = g q := by
      intro x hx
      rw [Nat.mul_add_div hperiod, Nat.div_eq_of_lt (by have := Finset.mem_range.mp hx; omega)]
      rfl
    rw [Finset.sum_congr rfl hconst, Finset.sum_const, Finset.card_range, nsmul_eq_mul]
  rw [hpart q r hr]
  congr 1
  induction q with
  | zero => simp
  | succ q ih => rw [Nat.mul_succ, hpart q period (Nat.le_refl _), ih, Finset.sum_range_succ]; ring

/-! ### The loop -/

theorem subsidyLoop_eq (interval nPrevHeight : ℕ) (hinterval : 0 < interval)
    (hint : (nPrevHeight : ℤ) ≤ INT_MAX) (v : ℤ) :
    ∀ fuel k : ℕ, k ≤ nPrevHeight / interval → nPrevHeight / interval ≤ k + fuel →
      (((k + 1) * interval : ℕ) : ℤ) ≤ INT_MAX →
      subsidyLoop interval nPrevHeight fuel ((k + 1) * interval : ℕ) (declineSubsidy^[k] v) =
        if (((nPrevHeight / interval + 1) * interval : ℕ) : ℤ) ≤ INT_MAX then
          .ok (declineSubsidy^[nPrevHeight / interval] v)
        else .error .overflow := by
  intro fuel
  induction fuel with
  | zero =>
    intro k hk hfuel hi
    obtain rfl : k = nPrevHeight / interval := by omega
    have hdone : ¬ (nPrevHeight / interval + 1) * interval ≤ nPrevHeight := by
      rw [← Nat.le_div_iff_mul_le hinterval]
      omega
    rw [subsidyLoop, if_neg (by omega), if_pos hi]
  | succ fuel ih =>
    intro k hk hfuel hi
    rw [subsidyLoop]
    by_cases hpass : k + 1 ≤ nPrevHeight / interval
    · have hle := (Nat.le_div_iff_mul_le hinterval).mp hpass
      have hsum : (k + 1 + 1) * interval = (k + 1) * interval + interval := Nat.succ_mul ..
      rw [if_pos (by omega)]
      by_cases hnext : (((k + 1 + 1) * interval : ℕ) : ℤ) ≤ INT_MAX
      · have hadd : addInt ((k + 1) * interval : ℕ) interval =
            .ok ((k + 1 + 1) * interval : ℕ) := by
          rw [addInt, if_neg (by omega), hsum, Nat.cast_add]
        rw [hadd, ← Function.iterate_succ_apply' declineSubsidy k v]
        exact ih (k + 1) hpass (by omega) hnext
      · -- the next value is above the height, so this was the last pass
        have hlast : nPrevHeight / interval = k + 1 := by
          by_contra hne
          have hmore := (Nat.le_div_iff_mul_le hinterval).mp
            (show k + 1 + 1 ≤ nPrevHeight / interval by omega)
          omega
        have hadd : addInt ((k + 1) * interval : ℕ) interval = .error .overflow := by
          rw [addInt, if_pos (by omega)]
        rw [hadd, hlast, if_neg hnext]
        rfl
    · obtain rfl : k = nPrevHeight / interval := by omega
      rw [Nat.le_div_iff_mul_le hinterval] at hpass
      rw [if_neg (by omega), if_pos hi]

def overflowHeight : ℕ := 8171 * mainParams.nSubsidyHalvingInterval

theorem mainSubsidy_eq (nPrevBits : ℕ) {h : ℕ} (hlt : h < overflowHeight) :
    mainSubsidy nPrevBits h =
      .ok (Stonecoin.getBlockSubsidy mainParams.nSubsidyHalvingInterval nPrevBits h) := by
  have hover : overflowHeight = 2147338800 := rfl
  have hmax : INT_MAX = 2147483647 := rfl
  have hloop : subsidyLoop (262800 : ℕ) h (h : ℤ).toNat (262800 : ℕ) (10 * COIN) =
      .ok (declineSubsidy^[h / 262800] (10 * COIN)) := by
    have heq := subsidyLoop_eq 262800 h (by omega) (by omega)
      (10 * COIN) h 0 (Nat.zero_le _) (by omega) (by omega)
    rw [if_pos (by omega)] at heq
    exact heq
  have hadd : addInt h 1 = .ok ((h : ℤ) + 1) := by rw [addInt, if_neg (by omega)]
  show getBlockSubsidy (262800 : ℕ) nPrevBits h false = _
  rw [getBlockSubsidy, Stonecoin.getBlockSubsidy, hadd, hloop]
  dsimp only [bind, Except.bind]
  simp only [Bool.false_eq_true, if_false, Int.toNat_natCast]
  split_ifs <;> rfl

theorem mainSubsidy_overflow (nPrevBits : ℕ) :
    mainSubsidy nPrevBits overflowHeight = .error .overflow := by
  have hloop : subsidyLoop (262800 : ℕ) (2147338800 : ℕ) 2147338800 (262800 : ℕ) (10 * COIN) =
      .error .overflow := by
    have heq := subsidyLoop_eq 262800 2147338800 (by decide)
      (by decide) (10 * COIN) 2147338800 0 (Nat.zero_le _) (by decide) (by decide)
    rw [if_neg (by decide)] at heq
    exact heq
  have hadd : addInt (2147338800 : ℕ) 1 = .ok 2147338801 := rfl
  show getBlockSubsidy (262800 : ℕ) nPrevBits (2147338800 : ℕ) false = _
  rw [getBlockSubsidy, hadd, if_neg (by decide)]
  dsimp only [bind, Except.bind]
  rw [if_neg (by decide), if_neg (by decide), if_pos (by decide), Int.toNat_natCast, hloop]

/-! ### The sums -/

theorem getBlockSubsidy_nonneg (nPrevBits : ℕ) (h : ℕ) :
    0 ≤ Stonecoin.getBlockSubsidy mainParams.nSubsidyHalvingInterval nPrevBits h :=
  (getBlockSubsidy_range mainParams.nSubsidyHalvingInterval nPrevBits h).1

/-- The subsidies before the overflow, summed. -/
def issued (n : ℕ) : ℤ :=
  ∑ h ∈ Finset.range n, Stonecoin.getBlockSubsidy mainParams.nSubsidyHalvingInterval 0 h

theorem minted_eq (nPrevBits : ℕ → ℕ) : ∀ {n : ℕ}, n ≤ overflowHeight →
    minted nPrevBits n = .ok (issued n) := by
  intro n
  induction n with
  | zero => exact fun _ => rfl
  | succ n ih =>
    intro hn
    rw [minted, ih (by omega), mainSubsidy_eq _ hn]
    show Except.ok (issued n + _) = Except.ok (issued (n + 1))
    rw [issued, issued, Finset.sum_range_succ]
    rfl

theorem issued_mono {m n : ℕ} (h : m ≤ n) : issued m ≤ issued n := by
  apply Finset.sum_le_sum_of_subset_of_nonneg
  · exact Finset.range_subset_range.mpr h
  · exact fun k _ _ => getBlockSubsidy_nonneg 0 k

/-- The subsidy of a year, first, second and so on. -/
def yearly (k : ℕ) : ℤ := declineSubsidy^[k] (10 * COIN)

/-- What the first blocks and the post-mine have more than the subsidy of their year. -/
def extra (h : ℕ) : ℤ :=
  if h < 250 then if h = 0 then 499990 * COIN else -9 * COIN
  else if h = 117869 then COIN * POST_MINE_VALUE else 0

theorem getBlockSubsidy_split (nPrevBits h : ℕ) :
    Stonecoin.getBlockSubsidy mainParams.nSubsidyHalvingInterval nPrevBits h =
      yearly (h / 262800) + extra h := by
  have hpost : POST_MINE_HEIGHT = 117870 := rfl
  have hfirst : h < 262800 → yearly (h / 262800) = 10 * COIN := by
    intro hlt
    rw [Nat.div_eq_of_lt hlt]
    rfl
  rw [Stonecoin.getBlockSubsidy, extra]
  dsimp only
  by_cases hsetup : h < 250
  · rw [if_pos hsetup, hfirst (by omega)]
    by_cases hzero : h = 0
    · rw [if_pos (by omega), if_pos hzero]
      rfl
    · rw [if_neg (by omega), if_pos (by omega), if_neg hzero]
      rfl
  · rw [if_neg hsetup, if_neg (by omega), if_neg (by omega), if_neg (by omega)]
    by_cases hmine : h = 117869
    · rw [if_pos (by omega), if_neg (by omega), if_pos hmine, hfirst (by omega), add_comm]
    · rw [if_neg (by omega), if_pos (by omega), if_neg hmine, zero_add, add_zero]
      rfl

theorem sum_extra {n : ℕ} (hn : 117870 ≤ n) :
    ∑ h ∈ Finset.range n, extra h = 99774900000000 := by
  have hfirst : ∑ h ∈ Finset.range 250, extra h = 49774900000000 := by decide +kernel
  have hrest : ∑ h ∈ Finset.Ico 250 n, extra h = COIN * POST_MINE_VALUE := by
    rw [Finset.sum_eq_single 117869]
    · rfl
    · intro h hmem hne
      rw [extra, if_neg (by have := Finset.mem_Ico.mp hmem; omega), if_neg hne]
    · intro hmem
      exact absurd (Finset.mem_Ico.mpr ⟨by omega, by omega⟩) hmem
  rw [← Finset.sum_range_add_sum_Ico extra (show 250 ≤ n by omega), hfirst, hrest]
  rfl

theorem issued_eq {q r : ℕ} (hr : r ≤ 262800) (hmined : 117870 ≤ 262800 * q + r) :
    issued (262800 * q + r) =
      262800 * ∑ k ∈ Finset.range q, yearly k + r * yearly q + 99774900000000 := by
  have hsplit : issued (262800 * q + r) =
      ∑ h ∈ Finset.range (262800 * q + r), (yearly (h / 262800) + extra h) :=
    Finset.sum_congr rfl fun h _ => getBlockSubsidy_split 0 h
  rw [hsplit, Finset.sum_add_distrib, sum_range_div yearly (by omega) q hr, sum_extra hmined]
  rfl

theorem yearly_end (k : ℕ) : yearly (181 + k) = 9 := by
  have hfixed : declineSubsidy 9 = 9 := rfl
  have hend : yearly 181 = 9 := by decide +kernel
  rw [yearly, Nat.add_comm, Function.iterate_add_apply, show declineSubsidy^[181] _ = 9 from hend]
  exact Function.iterate_fixed hfixed k

theorem issued_total : issued overflowHeight = 2727793978228800 := by
  have hearly : ∑ k ∈ Finset.range 181, yearly k = 10000000686 := by decide +kernel
  have hlate : ∑ k ∈ Finset.range 7990, yearly (181 + k) = 7990 * 9 := by
    rw [Finset.sum_congr rfl fun k _ => yearly_end k, Finset.sum_const, Finset.card_range]
    rfl
  have hover : overflowHeight = 262800 * (181 + 7990) + 0 := rfl
  rw [hover, issued_eq (by omega) (by omega), Finset.sum_range_add, hearly, hlate,
    Nat.cast_zero, zero_mul]
  norm_num

theorem issued_le_iff (n : ℕ) : issued n ≤ MAX_MONEY ↔ n ≤ 3574659 := by
  have hfull : issued (262800 * 13 + 158259) = 2099999875945515 := by
    rw [issued_eq (by omega) (by omega)]
    decide +kernel
  have hnext : issued (262800 * 13 + 158260) = 2100000130132100 := by
    rw [issued_eq (by omega) (by omega)]
    decide +kernel
  constructor
  · intro h
    by_contra hlt
    have hmono := issued_mono (show 262800 * 13 + 158260 ≤ n by omega)
    rw [hnext] at hmono
    exact absurd (hmono.trans h) (by decide)
  · intro h
    have hmono := issued_mono (show n ≤ 262800 * 13 + 158259 by omega)
    rw [hfull] at hmono
    exact hmono.trans (by decide)

theorem yearly_antitone {m n : ℕ} (h : m ≤ n) : yearly n ≤ yearly m := by
  refine antitone_nat_of_succ_le (f := yearly) (fun k => ?_) h
  have hrange := declineSubsidy_iterate k
  rw [yearly, Function.iterate_succ_apply', declineSubsidy, Int.tdiv_eq_ediv_of_nonneg hrange.1]
  show _ ≤ declineSubsidy^[k] (10 * COIN)
  omega

/-- **The subsidies of the main network.**  They are there and not negative up to the height
at which the counter overflows, do not grow from height 250 on but for the post-mine, and
sum to more than `MAX_MONEY` from a height on. -/
theorem subsidies_issued (nPrevBits : ℕ → ℕ) :
    (∀ h < overflowHeight, ∃ v, mainSubsidy (nPrevBits h) h = .ok v ∧ 0 ≤ v) ∧
      (∀ h h' : ℕ, 250 ≤ h → h ≤ h' → h' < overflowHeight → (h : ℤ) + 1 ≠ POST_MINE_HEIGHT →
        (h' : ℤ) + 1 ≠ POST_MINE_HEIGHT → ∃ v v', mainSubsidy (nPrevBits h) h = .ok v ∧
          mainSubsidy (nPrevBits h') h' = .ok v' ∧ v' ≤ v) ∧
      (∀ n ≤ overflowHeight, ∃ total, minted nPrevBits n = .ok total ∧
        (total ≤ MAX_MONEY ↔ n ≤ 3574659)) ∧
      minted nPrevBits overflowHeight = .ok 2727793978228800 := by
  have hpost : POST_MINE_HEIGHT = 117870 := rfl
  -- a height that is not special
  have hregular : ∀ h : ℕ, 250 ≤ h → (h : ℤ) + 1 ≠ POST_MINE_HEIGHT → h < overflowHeight →
      mainSubsidy (nPrevBits h) h = .ok (yearly (h / 262800)) := by
    intro h hfirst hne hlt
    rw [mainSubsidy_eq _ hlt, getBlockSubsidy_split, extra, if_neg (by omega),
      if_neg (by omega), add_zero]
  refine ⟨fun h hlt => ?_, fun h h' hfirst hle hlt hne hne' => ?_, fun n hn => ?_, ?_⟩
  · exact ⟨_, mainSubsidy_eq _ hlt, getBlockSubsidy_nonneg ..⟩
  · exact ⟨_, _, hregular h hfirst hne (by omega), hregular h' (by omega) hne' hlt,
      yearly_antitone (Nat.div_le_div_right hle)⟩
  · exact ⟨issued n, minted_eq nPrevBits hn, issued_le_iff n⟩
  · rw [minted_eq nPrevBits (Nat.le_refl _), issued_total]

/-- In the fourteenth year the sum is more than `MAX_MONEY`, and in the last years of the
heights below `2 ^ 31` the counter of the loop overflows. -/
theorem issued_exceeds : (∃ total, minted (fun _ => 0) 3574660 = .ok total ∧ MAX_MONEY < total) ∧
    mainSubsidy 0 2147338800 = .error .overflow := by
  refine ⟨⟨_, minted_eq _ (by decide), ?_⟩, mainSubsidy_overflow 0⟩
  rw [← not_le, issued_le_iff]
  decide

end Stonecoin.BlockSubsidy
