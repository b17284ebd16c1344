/-
Numbers of 256 bits (`arith_uint256.h`, `arith_uint256.cpp`).  A `base_uint<256>` is the value of
its words; its sums, differences and shifts wrap around.

The product with a word goes over the words and carries, the quotient is found bit by bit from
the highest one on.
-/
import Stonecoin.Script
import Mathlib.Data.Nat.Size
import Mathlib.Algebra.Order.Ring.Nat
import Mathlib.Tactic.Ring

namespace Stonecoin

/-! ### Compact numbers -/

/-- `arith_uint256::GetCompact(false)`. -/
def getCompact (a : UInt256) : ℕ :=
  let nSize := (Nat.size a.toNat + 7) / 8
  let nCompact :=
    if nSize ≤ 3 then ((a.toNat % 2 ^ 64) <<< (8 * (3 - nSize))) % 2 ^ 64 % 2 ^ 32
    else (a.toNat >>> (8 * (nSize - 3))) % 2 ^ 64 % 2 ^ 32
  -- the bit of the sign is kept free
  let r := if nCompact &&& 0x00800000 ≠ 0 then (nCompact >>> 8, nSize + 1) else (nCompact, nSize)
  r.1 ||| r.2 <<< 24

/-- What `SetCompact` leaves: the number, `fNegative` and `fOverflow`. -/
structure Compact where
  value : UInt256
  fNegative : Bool
  fOverflow : Bool
deriving DecidableEq, Repr

def setCompact (nCompact : UInt32) : Compact :=
  let nSize := nCompact.toNat >>> 24
  let nWord := nCompact.toNat &&& 0x007fffff
  let nWord := if nSize ≤ 3 then nWord >>> (8 * (3 - nSize)) else nWord
  { value :=
      if nSize ≤ 3 then BitVec.ofNat 256 nWord
      else BitVec.ofNat 256 nWord <<< (8 * (nSize - 3))
    fNegative := nWord ≠ 0 ∧ nCompact.toNat &&& 0x00800000 ≠ 0
    fOverflow := nWord ≠ 0 ∧ (34 < nSize ∨ 0xff < nWord ∧ 33 < nSize ∨ 0xffff < nWord ∧ 32 < nSize) }

/-- The number that `nBits` stands for, of any size. -/
def compactValue (nCompact : UInt32) : ℕ :=
  let nSize := nCompact.toNat >>> 24
  let nWord := nCompact.toNat &&& 0x007fffff
  if nSize ≤ 3 then nWord >>> (8 * (3 - nSize)) else nWord * 2 ^ (8 * (nSize - 3))

theorem setCompact_toNat {nCompact : UInt32} (h : (setCompact nCompact).fOverflow = false) :
    (setCompact nCompact).value.toNat = compactValue nCompact := by
  have hword : nCompact.toNat &&& 0x007fffff < 2 ^ 23 :=
    lt_of_le_of_lt Nat.and_le_right (by decide)
  simp only [setCompact, compactValue] at h ⊢
  generalize nCompact.toNat &&& 0x007fffff = nWord at h hword ⊢
  generalize nCompact.toNat >>> 24 = nSize at h ⊢
  by_cases hsize : nSize ≤ 3
  · have hle : nWord >>> (8 * (3 - nSize)) ≤ nWord := Nat.shiftRight_le _ _
    simp only [hsize, if_true, BitVec.toNat_ofNat]
    exact Nat.mod_eq_of_lt (by omega)
  · simp only [hsize, if_false, decide_eq_false_iff_not] at h ⊢
    have hfits : ∀ {a c : ℕ}, nWord < 2 ^ a → nSize - 3 ≤ c → a + 8 * c = 256 →
        nWord * 2 ^ (8 * (nSize - 3)) < 2 ^ 256 := by
      intro a c ha hc hsum
      calc nWord * 2 ^ (8 * (nSize - 3)) < 2 ^ a * 2 ^ (8 * (nSize - 3)) :=
            Nat.mul_lt_mul_of_pos_right ha (Nat.two_pow_pos _)
        _ ≤ 2 ^ a * 2 ^ (8 * c) :=
            Nat.mul_le_mul_left _ (Nat.pow_le_pow_right (by decide) (Nat.mul_le_mul_left 8 hc))
        _ = 2 ^ 256 := by rw [← Nat.pow_add, hsum]
    have hbound : nWord * 2 ^ (8 * (nSize - 3)) < 2 ^ 256 := by
      by_cases hzero : nWord = 0
      · rw [hzero, Nat.zero_mul]
        exact Nat.two_pow_pos _
      -- one, two or three bytes below the highest ones
      by_cases h33 : 33 < nSize
      · exact hfits (a := 8) (c := 31) (by omega) (by omega) rfl
      by_cases h32 : 32 < nSize
      · exact hfits (a := 16) (c := 30) (by omega) (by omega) rfl
      · exact hfits (a := 24) (c := 29) (by omega) (by omega) rfl
    rw [BitVec.toNat_shiftLeft, BitVec.toNat_ofNat, Nat.shiftLeft_eq,
      Nat.mod_eq_of_lt (show nWord < 2 ^ 256 by omega), Nat.mod_eq_of_lt hbound]

/-! ### The product with a word -/

/-- The value of some words, the lowest one first. -/
def wordsValue : List ℕ → ℕ
  | [] => 0
  | w :: pn => w + 2 ^ 32 * wordsValue pn

def toWords : ℕ → ℕ → List ℕ
  | 0, _ => []
  | width + 1, n => n % 2 ^ 32 :: toWords width (n / 2 ^ 32)

def mulLoop (b32 : ℕ) : List ℕ → ℕ → List ℕ
  | [], _ => []
  | w :: pn, carry =>
    let n := (carry + b32 * w % 2 ^ 64) % 2 ^ 64
    n % 2 ^ 32 :: mulLoop b32 pn (n / 2 ^ 32)

/-- `operator*=(uint32_t)`. -/
def mul32 (a : UInt256) (b32 : UInt32) : UInt256 :=
  BitVec.ofNat 256 (wordsValue (mulLoop b32.toNat (toWords 8 a.toNat) 0))

theorem wordsValue_toWords : ∀ width n : ℕ, wordsValue (toWords width n) = n % 2 ^ (32 * width) := by
  intro width
  induction width with
  | zero => exact fun n => (Nat.mod_one n).symm
  | succ width ih =>
    intro n
    rw [toWords, wordsValue, ih, Nat.mul_succ, Nat.add_comm (32 * width), Nat.pow_add, Nat.mod_mul]

theorem toWords_lt : ∀ {width n w : ℕ}, w ∈ toWords width n → w < 2 ^ 32 := by
  intro width
  induction width with
  | zero => exact fun h => absurd h List.not_mem_nil
  | succ width ih =>
    intro n w h
    rcases List.mem_cons.mp h with rfl | h
    · exact Nat.mod_lt _ (by decide)
    · exact ih h

theorem length_toWords : ∀ width n : ℕ, (toWords width n).length = width := by
  intro width
  induction width with
  | zero => exact fun _ => rfl
  | succ width ih => exact fun n => congrArg Nat.succ (ih _)

theorem wordsValue_mulLoop {b32 : ℕ} (hb : b32 < 2 ^ 32) : ∀ {pn : List ℕ} {carry : ℕ},
    (∀ w ∈ pn, w < 2 ^ 32) → carry < 2 ^ 32 →
      wordsValue (mulLoop b32 pn carry) =
        (wordsValue pn * b32 + carry) % 2 ^ (32 * pn.length) := by
  intro pn
  induction pn with
  | nil => exact fun _ _ => (Nat.mod_one _).symm
  | cons w pn ih =>
    intro carry hpn hcarry
    have hw := hpn w List.mem_cons_self
    have hmul : b32 * w ≤ (2 ^ 32 - 1) * (2 ^ 32 - 1) :=
      Nat.mul_le_mul (Nat.le_sub_one_of_lt hb) (Nat.le_sub_one_of_lt hw)
    have hn : (carry + b32 * w % 2 ^ 64) % 2 ^ 64 = carry + b32 * w := by
      rw [Nat.mod_eq_of_lt (show b32 * w < 2 ^ 64 by omega), Nat.mod_eq_of_lt (by omega)]
    have hnext : (carry + b32 * w) / 2 ^ 32 < 2 ^ 32 := by omega
    have hsum : wordsValue (w :: pn) * b32 + carry =
        (carry + b32 * w) + 2 ^ 32 * (wordsValue pn * b32) := by
      rw [wordsValue]
      ring
    have hdiv : ((carry + b32 * w) + 2 ^ 32 * (wordsValue pn * b32)) / 2 ^ 32 =
        wordsValue pn * b32 + (carry + b32 * w) / 2 ^ 32 := by
      rw [Nat.add_mul_div_left _ _ (by decide), Nat.add_comm]
    rw [mulLoop, hn, wordsValue, ih (fun w hw => hpn w (List.mem_cons_of_mem _ hw)) hnext,
      List.length_cons, Nat.mul_succ, Nat.add_comm (32 * pn.length), Nat.pow_add, Nat.mod_mul, hsum,
      hdiv, Nat.add_mul_mod_self_left]

theorem toNat_mul32 (a : UInt256) (b32 : UInt32) :
    (mul32 a b32).toNat = a.toNat * b32.toNat % 2 ^ 256 := by
  have hvalue : wordsValue (toWords 8 a.toNat) = a.toNat := by
    rw [wordsValue_toWords]
    exact Nat.mod_eq_of_lt a.isLt
  rw [mul32, BitVec.toNat_ofNat, wordsValue_mulLoop b32.toNat_lt (fun _ hw => toWords_lt hw)
    (by decide), length_toWords, hvalue, Nat.add_zero]
  exact Nat.mod_mod _ _

/-! ### The quotient -/

/-- The loop of `operator/=`, when it has `k` passes left: `div` is shifted by `k - 1` bits. -/
def divLoop : ℕ → UInt256 → UInt256 → UInt256 → UInt256
  | 0, _, _, quotient => quotient
  | shift + 1, num, div, quotient =>
    if div ≤ num then divLoop shift (num - div) (div >>> 1) (quotient ||| ((1 : UInt256) <<< shift))
    else divLoop shift num (div >>> 1) quotient

/-- `operator/=`; `none` is the exception for a division by zero. -/
def divide (a b : UInt256) : Option UInt256 :=
  let num_bits := Nat.size a.toNat
  let div_bits := Nat.size b.toNat
  if div_bits = 0 then none
  else if num_bits < div_bits then some 0
  else
    let shift := num_bits - div_bits
    some (divLoop (shift + 1) a (b <<< shift) 0)

theorem toNat_divLoop {b : ℕ} (hb : 0 < b) : ∀ {k : ℕ} {num div quotient : UInt256} {q : ℕ},
    k ≤ 256 → (0 < k → div.toNat = b * 2 ^ (k - 1)) → num.toNat < b * 2 ^ k →
      quotient.toNat = 2 ^ k * q →
        (divLoop k num div quotient).toNat = quotient.toNat + num.toNat / b := by
  intro k
  induction k with
  | zero =>
    intro num div quotient q _ _ hnum _
    rw [Nat.pow_zero, Nat.mul_one] at hnum
    rw [divLoop, Nat.div_eq_of_lt hnum, Nat.add_zero]
  | succ k ih =>
    intro num div quotient q hk hdiv hnum hquotient
    have hdivk : div.toNat = b * 2 ^ k := hdiv (Nat.succ_pos k)
    have hnext : 0 < k → (div >>> 1).toNat = b * 2 ^ (k - 1) := by
      intro hpos
      obtain ⟨j, rfl⟩ : ∃ j, k = j + 1 := ⟨k - 1, by omega⟩
      rw [BitVec.toNat_ushiftRight, Nat.shiftRight_eq_div_pow, hdivk, Nat.pow_succ,
        ← Nat.mul_assoc, Nat.pow_one, Nat.mul_div_cancel _ (by decide), Nat.add_sub_cancel]
    rw [divLoop]
    by_cases hle : div ≤ num
    · have hle' : div.toNat ≤ num.toNat := hle
      have hsub : (num - div).toNat = num.toNat - b * 2 ^ k := by
        rw [BitVec.toNat_sub_of_le hle, hdivk]
      have hbit : ((1 : UInt256) <<< k).toNat = 2 ^ k := by
        rw [BitVec.toNat_shiftLeft, Nat.shiftLeft_eq]
        show 1 * 2 ^ k % 2 ^ 256 = 2 ^ k
        rw [Nat.one_mul, Nat.mod_eq_of_lt (Nat.pow_lt_pow_right (by decide) (by omega))]
      have hor : (quotient ||| ((1 : UInt256) <<< k)).toNat = 2 ^ k * (2 * q + 1) := by
        rw [BitVec.toNat_or, hbit, hquotient,
          ← Nat.two_pow_add_eq_or_of_lt (Nat.pow_lt_pow_right (by decide) (Nat.lt_succ_self k)),
          Nat.pow_succ, Nat.mul_add, Nat.mul_one, Nat.mul_assoc]
      have hless : (num - div).toNat < b * 2 ^ k := by
        rw [Nat.pow_succ, ← Nat.mul_assoc] at hnum
        omega
      rw [if_pos hle, ih (by omega) hnext hless hor, hor, hsub, hquotient]
      have hsplit : num.toNat / b = (num.toNat - b * 2 ^ k) / b + 2 ^ k := by
        rw [← Nat.add_mul_div_left _ _ hb, Nat.sub_add_cancel (hdivk ▸ hle')]
      rw [hsplit, Nat.pow_succ]
      ring
    · have hlt : num.toNat < b * 2 ^ k := by
        rw [← hdivk]
        exact Nat.lt_of_not_le hle
      have hquotient' : quotient.toNat = 2 ^ k * (2 * q) := by
        rw [hquotient, Nat.pow_succ, Nat.mul_assoc]
      rw [if_neg hle, ih (by omega) hnext hlt hquotient']

theorem divide_eq (a : UInt256) {b : UInt256} (hb : 0 < b.toNat) :
    ∃ c, divide a b = some c ∧ c.toNat = a.toNat / b.toNat := by
  have hpos : 0 < Nat.size b.toNat := Nat.size_pos.mpr hb
  have hsize : Nat.size a.toNat ≤ 256 := Nat.size_le.mpr a.isLt
  have ha : a.toNat < 2 ^ Nat.size a.toNat := Nat.lt_size_self a.toNat
  have hbs : b.toNat < 2 ^ Nat.size b.toNat := Nat.lt_size_self b.toNat
  have hb' : 2 ^ (Nat.size b.toNat - 1) ≤ b.toNat := Nat.lt_size.mp (by omega)
  unfold divide
  dsimp only
  rw [if_neg hpos.ne']
  by_cases hlt : Nat.size a.toNat < Nat.size b.toNat
  · rw [if_pos hlt]
    refine ⟨0, rfl, ?_⟩
    have hless : a.toNat < b.toNat :=
      ha.trans_le ((Nat.pow_le_pow_right (by decide) (by omega)).trans hb')
    rw [Nat.div_eq_of_lt hless]
    rfl
  · rw [if_neg hlt]
    refine ⟨_, rfl, ?_⟩
    have hshift : (b <<< (Nat.size a.toNat - Nat.size b.toNat)).toNat =
        b.toNat * 2 ^ (Nat.size a.toNat - Nat.size b.toNat) := by
      rw [BitVec.toNat_shiftLeft, Nat.shiftLeft_eq]
      refine Nat.mod_eq_of_lt ?_
      calc b.toNat * 2 ^ (Nat.size a.toNat - Nat.size b.toNat)
          < 2 ^ Nat.size b.toNat * 2 ^ (Nat.size a.toNat - Nat.size b.toNat) :=
            Nat.mul_lt_mul_of_pos_right hbs (Nat.two_pow_pos _)
        _ = 2 ^ Nat.size a.toNat := by rw [← Nat.pow_add]; congr 1; omega
        _ ≤ 2 ^ 256 := Nat.pow_le_pow_right (by decide) hsize
    have hnum : a.toNat < b.toNat * 2 ^ (Nat.size a.toNat - Nat.size b.toNat + 1) := by
      calc a.toNat < 2 ^ Nat.size a.toNat := ha
        _ = 2 ^ (Nat.size b.toNat - 1) * 2 ^ (Nat.size a.toNat - Nat.size b.toNat + 1) := by
            rw [← Nat.pow_add]; congr 1; omega
        _ ≤ b.toNat * 2 ^ (Nat.size a.toNat - Nat.size b.toNat + 1) :=
            Nat.mul_le_mul_right _ hb'
    have hzero : (0 : UInt256).toNat =
        2 ^ (Nat.size a.toNat - Nat.size b.toNat + 1) * 0 := rfl
    have hloop := toNat_divLoop hb (by omega) (fun _ => hshift) hnum hzero
    rw [hloop]
    exact Nat.zero_add _

end Stonecoin
