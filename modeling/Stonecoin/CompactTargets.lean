/-
Compact numbers in both directions (`arith_uint256::SetCompact` and `GetCompact`).

`GetCompact` keeps the highest bytes of a number: as many as three, but the highest bit of the
three is kept free for the sign.

  * `compact_round_trip`: both directions.
-/
import Stonecoin.ArithUint256
import Mathlib.Data.Nat.Bitwise

namespace Stonecoin

/-! ### The compact number -/

def compactSize (n : ℕ) : ℕ := if n = 0 then 0 else Nat.size n / 8 + 1

/-- The lower bits that are dropped. -/
def compactShift (n : ℕ) : ℕ := 8 * (compactSize n - 3)

/-- The word: the highest bytes. -/
def compactWord (n : ℕ) : ℕ := n <<< (8 * (3 - compactSize n)) >>> compactShift n

theorem signBit24_iff {x : ℕ} (h : x < 2 ^ 24) : x &&& 0x00800000 ≠ 0 ↔ 2 ^ 23 ≤ x := by
  have hand : x &&& 2 ^ 23 = (x.testBit 23).toNat * 2 ^ 23 := Nat.and_two_pow x 23
  have hbit : x.testBit 23 = true ↔ 2 ^ 23 ≤ x := by
    rw [Nat.testBit_eq_decide_div_mod_eq, decide_eq_true_eq]
    omega
  rw [show (0x00800000 : ℕ) = 2 ^ 23 from rfl, hand, ← hbit]
  cases x.testBit 23 <;> simp

theorem two_pow_le_shiftLeft {n j : ℕ} (hj : j ≤ 23) : 2 ^ 23 ≤ n <<< j ↔ 23 - j < Nat.size n := by
  rw [Nat.lt_size, Nat.shiftLeft_eq]
  have hsplit : 2 ^ 23 = 2 ^ (23 - j) * 2 ^ j := by
    rw [← Nat.pow_add]
    congr 1
    omega
  rw [hsplit]
  exact Nat.mul_le_mul_right_iff (Nat.two_pow_pos j)

theorem two_pow_le_shiftRight {n k : ℕ} : 2 ^ 23 ≤ n >>> k ↔ 23 + k < Nat.size n := by
  rw [Nat.lt_size, Nat.shiftRight_eq_div_pow, Nat.le_div_iff_mul_le (Nat.two_pow_pos k),
    ← Nat.pow_add]

theorem shiftLeft_lt {n j a : ℕ} (h : Nat.size n + j ≤ a) : n <<< j < 2 ^ a := by
  rw [Nat.shiftLeft_eq]
  calc n * 2 ^ j < 2 ^ Nat.size n * 2 ^ j :=
        Nat.mul_lt_mul_of_pos_right (Nat.lt_size_self n) (Nat.two_pow_pos j)
    _ = 2 ^ (Nat.size n + j) := (Nat.pow_add _ _ _).symm
    _ ≤ 2 ^ a := Nat.pow_le_pow_right (by decide) h

theorem shiftRight_lt {n k a : ℕ} (h : Nat.size n ≤ a + k) : n >>> k < 2 ^ a := by
  rw [Nat.shiftRight_eq_div_pow, Nat.div_lt_iff_lt_mul (Nat.two_pow_pos k), ← Nat.pow_add]
  exact (Nat.lt_size_self n).trans_le (Nat.pow_le_pow_right (by decide) h)

theorem compactWord_lt (n : ℕ) : compactWord n < 2 ^ 23 := by
  by_cases hn : n = 0
  · subst hn
    decide
  have hsize : compactSize n = Nat.size n / 8 + 1 := if_neg hn
  unfold compactWord compactShift
  by_cases hs : compactSize n ≤ 3
  · rw [Nat.sub_eq_zero_of_le hs, Nat.mul_zero, Nat.shiftRight_zero]
    exact shiftLeft_lt (by omega)
  · rw [Nat.sub_eq_zero_of_le (Nat.le_of_not_le hs), Nat.mul_zero, Nat.shiftLeft_zero]
    exact shiftRight_lt (by omega)

theorem getCompact_eq (a : UInt256) :
    getCompact a = compactWord a.toNat + compactSize a.toNat * 2 ^ 24 := by
  have hor : ∀ {w s : ℕ}, w < 2 ^ 23 → w ||| s <<< 24 = w + s * 2 ^ 24 := by
    intro w s hw
    rw [Nat.or_comm, ← Nat.shiftLeft_add_eq_or_of_lt (show w < 2 ^ 24 by omega), Nat.shiftLeft_eq,
      Nat.add_comm]
  have hword := compactWord_lt a.toNat
  generalize hn : a.toNat = n at hword ⊢
  by_cases hzero : n = 0
  · subst hzero
    rw [getCompact, hn]
    decide
  have hsize : compactSize n = Nat.size n / 8 + 1 := if_neg hzero
  have hpos : 0 < Nat.size n := Nat.size_pos.mpr (Nat.pos_of_ne_zero hzero)
  rw [← hor hword]
  rw [getCompact, hn]
  by_cases hs : (Nat.size n + 7) / 8 ≤ 3
  · -- all bytes are kept, or the lowest of three is dropped
    have hlt : n <<< (8 * (3 - (Nat.size n + 7) / 8)) < 2 ^ 24 := shiftLeft_lt (by omega)
    have hmod : n % 2 ^ 64 = n :=
      Nat.mod_eq_of_lt ((Nat.lt_size_self n).trans_le (Nat.pow_le_pow_right (by decide) (by omega)))
    rw [if_pos hs, hmod, Nat.mod_eq_of_lt (hlt.trans (by decide)),
      Nat.mod_eq_of_lt (hlt.trans (by decide))]
    by_cases hsign : 23 - 8 * (3 - (Nat.size n + 7) / 8) < Nat.size n
    · rw [if_pos ((signBit24_iff hlt).mpr ((two_pow_le_shiftLeft (by omega)).mpr hsign))]
      dsimp only
      have hmore : (Nat.size n + 7) / 8 + 1 = compactSize n := by omega
      rw [hmore]
      refine congrArg (· ||| _) ?_
      unfold compactWord compactShift
      by_cases hthree : compactSize n ≤ 3
      · have hsplit : 8 * (3 - (Nat.size n + 7) / 8) = 8 * (3 - compactSize n) + 8 := by omega
        rw [Nat.sub_eq_zero_of_le hthree, Nat.mul_zero, Nat.shiftRight_zero, hsplit,
          Nat.shiftLeft_add, Nat.shiftLeft_shiftRight]
      · have hfour : compactSize n = 4 := by omega
        have hnone : 8 * (3 - (Nat.size n + 7) / 8) = 0 := by omega
        rw [hfour, hnone]
    · rw [if_neg fun h => hsign ((two_pow_le_shiftLeft (by omega)).mp ((signBit24_iff hlt).mp h))]
      dsimp only
      have hsame : (Nat.size n + 7) / 8 = compactSize n := by omega
      rw [hsame]
      refine congrArg (· ||| _) ?_
      unfold compactWord compactShift
      rw [Nat.sub_eq_zero_of_le (show compactSize n ≤ 3 by omega), Nat.mul_zero,
        Nat.shiftRight_zero]
  · -- the highest three bytes, or two
    have hlt : n >>> (8 * ((Nat.size n + 7) / 8 - 3)) < 2 ^ 24 := shiftRight_lt (by omega)
    rw [if_neg hs, Nat.mod_eq_of_lt (hlt.trans (by decide)),
      Nat.mod_eq_of_lt (hlt.trans (by decide))]
    by_cases hsign : 23 + 8 * ((Nat.size n + 7) / 8 - 3) < Nat.size n
    · rw [if_pos ((signBit24_iff hlt).mpr (two_pow_le_shiftRight.mpr hsign))]
      dsimp only
      have hmore : (Nat.size n + 7) / 8 + 1 = compactSize n := by omega
      have hsum : 8 * ((Nat.size n + 7) / 8 - 3) + 8 = 8 * (compactSize n - 3) := by omega
      rw [hmore, ← Nat.shiftRight_add, hsum]
      refine congrArg (· ||| _) ?_
      unfold compactWord compactShift
      rw [Nat.sub_eq_zero_of_le (show 3 ≤ compactSize n by omega), Nat.mul_zero,
        Nat.shiftLeft_zero]
    · rw [if_neg fun h => hsign (two_pow_le_shiftRight.mp ((signBit24_iff hlt).mp h))]
      dsimp only
      have hsame : (Nat.size n + 7) / 8 = compactSize n := by omega
      rw [hsame]
      refine congrArg (· ||| _) ?_
      unfold compactWord compactShift
      rw [Nat.sub_eq_zero_of_le (show 3 ≤ compactSize n by omega), Nat.mul_zero,
        Nat.shiftLeft_zero]

/-! ### What is read back -/

/-- The highest bytes. -/
def compactFloor (n : ℕ) : ℕ := n >>> compactShift n <<< compactShift n

theorem compactSize_le {n : ℕ} (h : n < 2 ^ 256) : compactSize n ≤ 33 := by
  have hsize := Nat.size_le.mpr h
  unfold compactSize
  split
  · exact Nat.zero_le _
  · omega

theorem getCompact_lt (a : UInt256) : getCompact a < 2 ^ 32 := by
  have hword := compactWord_lt a.toNat
  have hsize := compactSize_le a.isLt
  rw [getCompact_eq]
  omega

theorem getCompact_parts (a : UInt256) :
    (UInt32.ofNat (getCompact a)).toNat >>> 24 = compactSize a.toNat ∧
      (UInt32.ofNat (getCompact a)).toNat &&& 0x007fffff = compactWord a.toNat ∧
      (UInt32.ofNat (getCompact a)).toNat &&& 0x00800000 = 0 := by
  have hword := compactWord_lt a.toNat
  have hnat : (UInt32.ofNat (getCompact a)).toNat =
      compactWord a.toNat + compactSize a.toNat * 2 ^ 24 := by
    rw [← getCompact_eq]
    exact UInt32.toNat_ofNat_of_lt (getCompact_lt a)
  rw [hnat]
  refine ⟨?_, ?_, ?_⟩
  · rw [Nat.shiftRight_eq_div_pow]
    omega
  · rw [show (0x007fffff : ℕ) = 2 ^ 23 - 1 from rfl, Nat.and_two_pow_sub_one_eq_mod]
    omega
  · have hbit : (compactWord a.toNat + compactSize a.toNat * 2 ^ 24).testBit 23 = false := by
      rw [Nat.testBit_eq_decide_div_mod_eq, decide_eq_false_iff_not]
      omega
    rw [show (0x00800000 : ℕ) = 2 ^ 23 from rfl, Nat.and_two_pow, hbit]
    rfl

theorem compactWord_shift (n : ℕ) :
    (if compactSize n ≤ 3 then compactWord n >>> (8 * (3 - compactSize n))
      else compactWord n * 2 ^ compactShift n) = compactFloor n := by
  unfold compactWord compactFloor compactShift
  by_cases hs : compactSize n ≤ 3
  · rw [if_pos hs, Nat.sub_eq_zero_of_le hs, Nat.mul_zero, Nat.shiftRight_zero,
      Nat.shiftLeft_shiftRight, Nat.shiftRight_zero, Nat.shiftLeft_zero]
  · rw [if_neg hs, Nat.sub_eq_zero_of_le (Nat.le_of_not_le hs), Nat.mul_zero,
      Nat.shiftLeft_zero, Nat.shiftLeft_eq]

theorem compactFloor_le (n : ℕ) :
    compactFloor n ≤ n ∧ n - compactFloor n < 2 ^ compactShift n := by
  have hdiv := Nat.div_add_mod n (2 ^ compactShift n)
  have hmod := Nat.mod_lt n (Nat.two_pow_pos (compactShift n))
  rw [Nat.mul_comm] at hdiv
  rw [compactFloor, Nat.shiftLeft_eq, Nat.shiftRight_eq_div_pow]
  omega

theorem compactShift_lt {n : ℕ} (h : 0 < n) : compactShift n < Nat.size n := by
  have hpos : 0 < Nat.size n := Nat.size_pos.mpr h
  have hsize : compactSize n = Nat.size n / 8 + 1 := if_neg h.ne'
  unfold compactShift
  omega

theorem size_compactFloor (n : ℕ) : Nat.size (compactFloor n) = Nat.size n := by
  rcases Nat.eq_zero_or_pos n with rfl | hpos
  · decide
  have hlt := compactShift_lt hpos
  have hle : Nat.size (compactFloor n) ≤ Nat.size n := Nat.size_le_size (compactFloor_le n).1
  refine le_antisymm hle ?_
  -- the power of two below the number is a multiple of the unit
  have hpow : 2 ^ (Nat.size n - 1) ≤ n := Nat.lt_size.mp (by omega)
  have hmul : 2 ^ (Nat.size n - 1 - compactShift n) * 2 ^ compactShift n = 2 ^ (Nat.size n - 1) := by
    rw [← Nat.pow_add]
    congr 1
    omega
  have hquot : 2 ^ (Nat.size n - 1 - compactShift n) ≤ n / 2 ^ compactShift n := by
    rw [Nat.le_div_iff_mul_le (Nat.two_pow_pos _), hmul]
    exact hpow
  have hfloor : 2 ^ (Nat.size n - 1) ≤ compactFloor n := by
    rw [compactFloor, Nat.shiftLeft_eq, Nat.shiftRight_eq_div_pow, ← hmul]
    exact Nat.mul_le_mul_right _ hquot
  have hsize := Nat.lt_size.mpr hfloor
  omega

theorem compactSize_compactFloor (n : ℕ) : compactSize (compactFloor n) = compactSize n := by
  have hzero : compactFloor n = 0 ↔ n = 0 := by
    rw [← Nat.size_eq_zero, size_compactFloor, Nat.size_eq_zero]
  unfold compactSize
  rw [size_compactFloor, if_congr hzero rfl rfl]

theorem compactWord_compactFloor (n : ℕ) : compactWord (compactFloor n) = compactWord n := by
  have hsize := compactSize_compactFloor n
  unfold compactWord compactShift
  rw [hsize]
  by_cases hs : compactSize n ≤ 3
  · have hfloor : compactFloor n = n := by
      rw [compactFloor, compactShift, Nat.sub_eq_zero_of_le hs]
      rfl
    rw [hfloor]
  · have hmore : 3 - compactSize n = 0 := by omega
    rw [hmore, Nat.mul_zero, Nat.shiftLeft_zero, Nat.shiftLeft_zero, compactFloor, compactShift,
      Nat.shiftLeft_shiftRight]

theorem fOverflow_iff (nCompact : UInt32) : (setCompact nCompact).fOverflow = true ↔
    2 ^ 256 * 256 ^ 3 ≤ (nCompact.toNat &&& 0x007fffff) * 256 ^ (nCompact.toNat >>> 24) := by
  have hword : nCompact.toNat &&& 0x007fffff < 2 ^ 23 :=
    lt_of_le_of_lt Nat.and_le_right (by decide)
  simp only [setCompact]
  generalize nCompact.toNat &&& 0x007fffff = nWord at hword ⊢
  generalize nCompact.toNat >>> 24 = nSize
  have hpow : ∀ s : ℕ, 256 ^ s = 2 ^ (8 * s) := fun s => by rw [Nat.pow_mul]
  have hlarge : ∀ {a s : ℕ}, 2 ^ a ≤ nWord → s ≤ nSize → 256 + 8 * 3 ≤ a + 8 * s →
      2 ^ 256 * 256 ^ 3 ≤ nWord * 256 ^ nSize := by
    intro a s ha hs hsum
    calc 2 ^ 256 * 256 ^ 3 = 2 ^ (256 + 8 * 3) := by rw [hpow, ← Nat.pow_add]
      _ ≤ 2 ^ (a + 8 * s) := Nat.pow_le_pow_right (by decide) hsum
      _ = 2 ^ a * 256 ^ s := by rw [hpow, Nat.pow_add]
      _ ≤ nWord * 256 ^ nSize :=
          Nat.mul_le_mul ha (Nat.pow_le_pow_right (by decide) hs)
  have hsmall : ∀ {a s : ℕ}, nWord < 2 ^ a → nSize ≤ s → a + 8 * s ≤ 256 + 8 * 3 →
      ¬ 2 ^ 256 * 256 ^ 3 ≤ nWord * 256 ^ nSize := by
    intro a s ha hs hsum
    refine Nat.not_le.mpr ?_
    calc nWord * 256 ^ nSize < 2 ^ a * 256 ^ nSize :=
          Nat.mul_lt_mul_of_pos_right ha (Nat.pow_pos (by decide))
      _ ≤ 2 ^ a * 256 ^ s := Nat.mul_le_mul_left _ (Nat.pow_le_pow_right (by decide) hs)
      _ = 2 ^ (a + 8 * s) := by rw [hpow, Nat.pow_add]
      _ ≤ 2 ^ (256 + 8 * 3) := Nat.pow_le_pow_right (by decide) hsum
      _ = 2 ^ 256 * 256 ^ 3 := by rw [hpow, ← Nat.pow_add]
  by_cases hs : nSize ≤ 3
  · have hno := hsmall (a := 23) hword hs (by decide)
    simp only [hs, if_true, hno, iff_false, decide_eq_true_eq]
    omega
  simp only [hs, if_false, decide_eq_true_eq]
  by_cases hzero : nWord = 0
  · subst hzero
    simp
  -- one, two or three bytes
  by_cases h1 : nWord < 2 ^ 8
  · by_cases h34 : nSize ≤ 34
    · have hno := hsmall h1 h34 (by decide)
      simp only [hno, iff_false]
      omega
    · have hyes := hlarge (a := 0) (s := 35) (by omega) (by omega) (by decide)
      simp only [hyes, iff_true]
      omega
  by_cases h2 : nWord < 2 ^ 16
  · by_cases h33 : nSize ≤ 33
    · have hno := hsmall h2 h33 (by decide)
      simp only [hno, iff_false]
      omega
    · have hyes := hlarge (a := 8) (s := 34) (by omega) (by omega) (by decide)
      simp only [hyes, iff_true]
      omega
  · by_cases h32 : nSize ≤ 32
    · have hno := hsmall (a := 24) (by omega) h32 (by decide)
      simp only [hno, iff_false]
      omega
    · have hyes := hlarge (a := 16) (s := 33) (by omega) (by omega) (by decide)
      simp only [hyes, iff_true]
      omega

/-! ### Both directions -/

theorem Compact.eq_of {c : Compact} {v : UInt256} (hvalue : c.value = v)
    (hnegative : c.fNegative = false) (hoverflow : c.fOverflow = false) : c = ⟨v, false, false⟩ := by
  cases c
  cases hvalue
  cases hnegative
  cases hoverflow
  rfl

theorem setCompact_getCompact (a : UInt256) :
    setCompact (UInt32.ofNat (getCompact a)) =
      ⟨BitVec.ofNat 256 (compactFloor a.toNat), false, false⟩ := by
  obtain ⟨hsize, hword, hsign⟩ := getCompact_parts a
  have hoverflow : (setCompact (UInt32.ofNat (getCompact a))).fOverflow = false := by
    refine Bool.eq_false_iff.mpr fun h => ?_
    have hlarge := (fOverflow_iff _).mp h
    rw [hsize, hword] at hlarge
    -- the word in its place is not more than the number
    have hplace : compactWord a.toNat * 256 ^ compactSize a.toNat ≤ a.toNat * 256 ^ 3 := by
      have hpow : ∀ s : ℕ, 256 ^ s = 2 ^ (8 * s) := fun s => by rw [Nat.pow_mul]
      have hfloor := (compactFloor_le a.toNat).1
      rw [← compactWord_shift] at hfloor
      by_cases hs : compactSize a.toNat ≤ 3
      · have hall : compactWord a.toNat = a.toNat * 2 ^ (8 * (3 - compactSize a.toNat)) := by
          rw [compactWord, compactShift, Nat.sub_eq_zero_of_le hs, Nat.mul_zero,
            Nat.shiftRight_zero, Nat.shiftLeft_eq]
        rw [hall, Nat.mul_assoc, hpow, hpow, ← Nat.pow_add]
        refine Nat.mul_le_mul_left _ (Nat.pow_le_pow_right (by decide) ?_)
        omega
      · rw [if_neg hs] at hfloor
        have hsplit : 256 ^ compactSize a.toNat = 2 ^ compactShift a.toNat * 256 ^ 3 := by
          rw [hpow, hpow, ← Nat.pow_add, compactShift]
          congr 1
          omega
        rw [hsplit, ← Nat.mul_assoc]
        exact Nat.mul_le_mul_right _ hfloor
    have hlt : a.toNat * 256 ^ 3 < 2 ^ 256 * 256 ^ 3 :=
      Nat.mul_lt_mul_of_pos_right a.isLt (by decide)
    omega
  have hvalue := setCompact_toNat hoverflow
  have hfloor : compactValue (UInt32.ofNat (getCompact a)) = compactFloor a.toNat := by
    rw [compactValue, hsize, hword, ← compactWord_shift]
    rfl
  have hnegative : (setCompact (UInt32.ofNat (getCompact a))).fNegative = false := by
    refine decide_eq_false fun h => h.2 hsign
  rw [hfloor] at hvalue
  have hbits : (setCompact (UInt32.ofNat (getCompact a))).value =
      BitVec.ofNat 256 (compactFloor a.toNat) :=
    BitVec.eq_of_toNat_eq (by rw [hvalue, BitVec.toNat_ofNat,
      Nat.mod_eq_of_lt ((compactFloor_le a.toNat).1.trans_lt a.isLt)])
  exact Compact.eq_of hbits hnegative hoverflow

theorem compactFloor_of_word {w k : ℕ} (hw : w < 2 ^ 23) :
    compactFloor (w * 2 ^ (8 * k)) = w * 2 ^ (8 * k) := by
  have hsize : Nat.size (w * 2 ^ (8 * k)) ≤ 23 + 8 * k := by
    rw [Nat.size_le, Nat.pow_add]
    exact Nat.mul_lt_mul_of_pos_right hw (Nat.two_pow_pos _)
  have hshift : compactShift (w * 2 ^ (8 * k)) ≤ 8 * k := by
    unfold compactShift compactSize
    split
    · omega
    · omega
  obtain ⟨j, hj⟩ := Nat.exists_eq_add_of_le hshift
  have hsplit : w * 2 ^ (8 * k) = w * 2 ^ j * 2 ^ compactShift (w * 2 ^ (8 * k)) := by
    rw [Nat.mul_assoc, ← Nat.pow_add, Nat.add_comm j, ← hj]
  rw [compactFloor, Nat.shiftLeft_eq, Nat.shiftRight_eq_div_pow]
  refine Nat.div_mul_cancel ?_
  exact ⟨w * 2 ^ j, hsplit.trans (Nat.mul_comm _ _)⟩

theorem compactFloor_compactValue (nCompact : UInt32) :
    compactFloor (compactValue nCompact) = compactValue nCompact := by
  have hword : nCompact.toNat &&& 0x007fffff < 2 ^ 23 :=
    lt_of_le_of_lt Nat.and_le_right (by decide)
  unfold compactValue
  dsimp only
  split
  next =>
    have hle := Nat.shiftRight_le (nCompact.toNat &&& 0x007fffff) (8 * (3 - nCompact.toNat >>> 24))
    have hfloor := compactFloor_of_word (k := 0) (hle.trans_lt hword)
    rwa [Nat.mul_zero, Nat.pow_zero, Nat.mul_one] at hfloor
  next => exact compactFloor_of_word hword

/-- **Compact targets round-trip.** -/
theorem compact_round_trip :
    (∀ v : UInt256, ∃ w : UInt256,
      getCompact v < 2 ^ 32 ∧
      setCompact (UInt32.ofNat (getCompact v)) = ⟨w, false, false⟩ ∧
      w.toNat = v.toNat >>> compactShift v.toNat <<< compactShift v.toNat ∧
      compactShift v.toNat = 8 * ((UInt32.ofNat (getCompact v)).toNat >>> 24 - 3) ∧
      w.toNat ≤ v.toNat ∧ v.toNat - w.toNat < 2 ^ compactShift v.toNat ∧
      getCompact w = getCompact v) ∧
    (∀ nCompact : UInt32, (setCompact nCompact).fNegative = false →
      (setCompact nCompact).fOverflow = false →
      setCompact (UInt32.ofNat (getCompact (setCompact nCompact).value)) = setCompact nCompact) ∧
    ∀ nCompact : UInt32, (setCompact nCompact).fOverflow = true ↔
      2 ^ 256 * 256 ^ 3 ≤ (nCompact.toNat &&& 0x007fffff) * 256 ^ (nCompact.toNat >>> 24) := by
  refine ⟨fun v => ?_, fun nCompact hnegative hoverflow => ?_, fOverflow_iff⟩
  · have hfloor := compactFloor_le v.toNat
    have hnat : (BitVec.ofNat 256 (compactFloor v.toNat)).toNat = compactFloor v.toNat := by
      rw [BitVec.toNat_ofNat, Nat.mod_eq_of_lt (hfloor.1.trans_lt v.isLt)]
    refine ⟨BitVec.ofNat 256 (compactFloor v.toNat), getCompact_lt v, setCompact_getCompact v,
      hnat, ?_, ?_, ?_, ?_⟩
    · rw [(getCompact_parts v).1, compactShift]
    · rw [hnat]
      exact hfloor.1
    · rw [hnat]
      exact hfloor.2
    · rw [getCompact_eq, getCompact_eq, hnat, compactWord_compactFloor, compactSize_compactFloor]
  · have hvalue : compactFloor (setCompact nCompact).value.toNat =
        (setCompact nCompact).value.toNat := by
      rw [setCompact_toNat hoverflow, compactFloor_compactValue]
    rw [setCompact_getCompact, hvalue, BitVec.ofNat_toNat, BitVec.setWidth_eq]
    exact (Compact.eq_of rfl hnegative hoverflow).symm

end Stonecoin
