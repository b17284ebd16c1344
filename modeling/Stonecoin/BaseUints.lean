/-
The arithmetic of `base_uint` on its words (`arith_uint256.h`, `arith_uint256.cpp`), for any
number of words.

The lists hold `pn`, the lowest word first.  Where a loop of the source puts words in their places,
the recursion goes over the places.  The operands of `operator*=` are two objects: of one and the
same, `*this = 0` would clear both.

  * `base_uint_arithmetic`: products and quotients.
-/
import Stonecoin.ArithUint256
import Mathlib.Data.Nat.Bitwise

namespace Stonecoin.BaseUint

/-! ### The operators -/

/-- `operator+=`, with the factor 1.  With the word `a.pn[j]` as its factor, it is the inner loop
of `operator*=`. -/
def accumulate (factor : ℕ) : List ℕ → List ℕ → ℕ → List ℕ
  | p :: pn, w :: b, carry =>
    let n := (carry + p + factor * w) % 2 ^ 64
    n % 2 ^ 32 :: accumulate factor pn b (n / 2 ^ 32)
  | pn, _, _ => pn

/-- The outer loop of `operator*=`, on the words from `j` on. -/
def mulFrom (b : List ℕ) : List ℕ → List ℕ → List ℕ
  | aj :: a, p :: pn =>
    match accumulate aj (p :: pn) b 0 with
    | p :: pn => p :: mulFrom b a pn
    | [] => []
  | _, pn => pn

/-- `operator*=`. -/
def product (a b : List ℕ) : List ℕ := mulFrom b a (a.map fun _ => 0)

/-- `operator++`. -/
def increment : List ℕ → List ℕ
  | [] => []
  | w :: pn => if (w + 1) % 2 ^ 32 = 0 then 0 :: increment pn else (w + 1) :: pn

/-- `operator-`. -/
def negate (pn : List ℕ) : List ℕ := increment (pn.map fun w => 2 ^ 32 - 1 - w)

/-- `operator-=`. -/
def subtract (pn b : List ℕ) : List ℕ := accumulate 1 pn (negate b) 0

/-- Less than a word: each gets the bits that the one below it loses. -/
def shlBits (shift : ℕ) : ℕ → List ℕ → List ℕ
  | _, [] => []
  | below, w :: pn =>
    ((if shift ≠ 0 then below >>> (32 - shift) else 0) ||| w <<< shift % 2 ^ 32) ::
      shlBits shift w pn

/-- `operator<<=`. -/
def shiftLeft (pn : List ℕ) (shift : ℕ) : List ℕ :=
  shlBits (shift % 32) 0 ((List.replicate (shift / 32) 0 ++ pn).take pn.length)

def shrBits (shift : ℕ) : List ℕ → List ℕ
  | [] => []
  | w :: pn =>
    ((if shift ≠ 0 then pn.headD 0 <<< (32 - shift) % 2 ^ 32 else 0) ||| w >>> shift) ::
      shrBits shift pn

/-- `operator>>=`. -/
def shiftRight (pn : List ℕ) (shift : ℕ) : List ℕ :=
  shrBits (shift % 32) ((pn ++ List.replicate (shift / 32) 0).drop (shift / 32))

def compareLoop : List ℕ → List ℕ → ℤ
  | a :: as, b :: bs => if a < b then -1 else if a > b then 1 else compareLoop as bs
  | _, _ => 0

def compareTo (a b : List ℕ) : ℤ := compareLoop a.reverse b.reverse

def wordBits (w : ℕ) : ℕ → ℕ
  | 0 => 1
  | nbits + 1 => if w &&& 1 <<< (nbits + 1) ≠ 0 then nbits + 1 + 1 else wordBits w nbits

/-- The outer loop of `bits`, from the highest word on. -/
def bitsLoop : List ℕ → ℕ
  | [] => 0
  | w :: pn => if w ≠ 0 then 32 * pn.length + (wordBits w 31) else bitsLoop pn

def bits (pn : List ℕ) : ℕ := bitsLoop pn.reverse

def setBit (pn : List ℕ) (shift : ℕ) : List ℕ :=
  pn.modify (shift / 32) fun w => w ||| 1 <<< (shift % 32)

/-- The loop of `operator/=`, while `shift` is not negative; `num` is left as the remainder. -/
def divLoop : ℕ → List ℕ → List ℕ → List ℕ → List ℕ
  | 0, _, _, quotient => quotient
  | shift + 1, num, div, quotient =>
    if 0 ≤ compareTo num div then
      divLoop shift (subtract num div) (shiftRight div 1) (setBit quotient shift)
    else divLoop shift num (shiftRight div 1) quotient

/-- `operator/=`; `none` is the exception. -/
def divide (a b : List ℕ) : Option (List ℕ) :=
  let quotient := a.map fun _ => 0
  if bits b = 0 then none
  else if bits a < bits b then some quotient
  else
    let shift := bits a - bits b
    some (divLoop (shift + 1) a (shiftLeft b shift) quotient)

/-! ### What the words stand for -/

/-- The words of a number. -/
structure Holds (width : ℕ) (pn : List ℕ) (n : ℕ) : Prop where
  length : pn.length = width
  words : ∀ w ∈ pn, w < 2 ^ 32
  value : wordsValue pn = n

theorem holds_nil : Holds 0 [] 0 := ⟨rfl, fun _ hw => absurd hw List.not_mem_nil, rfl⟩

theorem Holds.cons {width w n : ℕ} {pn : List ℕ} (hw : w < 2 ^ 32) (h : Holds width pn n) :
    Holds (width + 1) (w :: pn) (w + 2 ^ 32 * n) := by
  refine ⟨congrArg Nat.succ h.length, fun v hv => ?_, ?_⟩
  · rcases List.mem_cons.mp hv with rfl | hv
    · exact hw
    · exact h.words v hv
  · rw [wordsValue, h.value]

variable {width n : ℕ} {pn : List ℕ}

theorem Holds.of_cons {w : ℕ} (h : Holds (width + 1) (w :: pn) n) :
    w < 2 ^ 32 ∧ ∃ m, Holds width pn m ∧ n = w + 2 ^ 32 * m :=
  ⟨h.words w List.mem_cons_self, wordsValue pn, ⟨Nat.succ.inj h.length,
    fun v hv => h.words v (List.mem_cons_of_mem w hv), rfl⟩, h.value.symm⟩

variable {m : ℕ}

theorem Holds.congr (h : Holds width pn n) (heq : n = m) :
    Holds width pn m := heq ▸ h

theorem Holds.lt (h : Holds width pn n) : n < 2 ^ (32 * width) := by
  induction pn generalizing width n with
  | nil =>
    rw [← h.value]
    exact Nat.two_pow_pos _
  | cons w pn ih =>
    obtain rfl : pn.length + 1 = width := h.length
    obtain ⟨hw, m, hm, rfl⟩ := h.of_cons
    have hlt := ih hm
    rw [Nat.mul_succ, Nat.add_comm (32 * pn.length), Nat.pow_add]
    calc w + 2 ^ 32 * m < 2 ^ 32 * (m + 1) := by omega
      _ ≤ _ := Nat.mul_le_mul_left _ hlt

theorem holds_zeros (a : List ℕ) : Holds a.length (a.map fun _ => 0) 0 := by
  induction a with
  | nil => exact holds_nil
  | cons w a ih => exact ih.cons (Nat.two_pow_pos 32)

theorem mod_words (w m width : ℕ) : w % 2 ^ 32 + 2 ^ 32 * ((w / 2 ^ 32 + m) % 2 ^ (32 * width)) =
    (w + 2 ^ 32 * m) % 2 ^ (32 * (width + 1)) := by
  rw [Nat.mul_succ, Nat.add_comm (32 * width), Nat.pow_add, Nat.mod_mul, Nat.add_mul_mod_self_left,
    Nat.add_mul_div_left _ _ (Nat.two_pow_pos 32)]

theorem Holds.accumulate {factor : ℕ} (hf : factor < 2 ^ 32) : ∀ {pn b : List ℕ}
    {width wide n m carry : ℕ}, Holds width pn n → Holds wide b m → width ≤ wide →
      carry < 2 ^ 32 →
        Holds width (accumulate factor pn b carry) ((carry + n + factor * m) % 2 ^ (32 * width)) := by
  intro pn
  induction pn with
  | nil =>
    intro b width wide n m carry hn hm hle hcarry
    obtain rfl : 0 = width := hn.length
    exact holds_nil.congr (Nat.mod_one _).symm
  | cons p pn ih =>
    intro b width wide n m carry hn hm hle hcarry
    obtain rfl : pn.length + 1 = width := hn.length
    cases b with
    | nil =>
      have hwide := hm.length
      rw [List.length_nil] at hwide
      omega
    | cons w b =>
      obtain rfl : b.length + 1 = wide := hm.length
      obtain ⟨hp, n, hn', rfl⟩ := hn.of_cons
      obtain ⟨hw, m, hm', rfl⟩ := hm.of_cons
      have hmul : factor * w ≤ (2 ^ 32 - 1) * (2 ^ 32 - 1) :=
        Nat.mul_le_mul (Nat.le_sub_one_of_lt hf) (Nat.le_sub_one_of_lt hw)
      have hfits : (carry + p + factor * w) % 2 ^ 64 = carry + p + factor * w :=
        Nat.mod_eq_of_lt (by omega)
      have hrest := ih hn' hm' (Nat.le_of_succ_le_succ hle)
        (show (carry + p + factor * w) / 2 ^ 32 < 2 ^ 32 by omega)
      have hcons := hrest.cons (Nat.mod_lt (carry + p + factor * w) (Nat.two_pow_pos 32))
      rw [BaseUint.accumulate, hfits]
      refine hcons.congr ?_
      rw [Nat.add_assoc ((carry + p + factor * w) / 2 ^ 32), mod_words]
      congr 1
      ring

variable {b : List ℕ}

theorem Holds.mulFrom {wide : ℕ} (hb : Holds wide b m) : ∀ {a pn : List ℕ}
    {width k n : ℕ}, Holds width a k → Holds width pn n → width ≤ wide →
      Holds width (mulFrom b a pn) ((n + k * m) % 2 ^ (32 * width)) := by
  intro a
  induction a with
  | nil =>
    intro pn width k n ha hn hle
    obtain rfl : 0 = width := ha.length
    obtain rfl : pn = [] := List.length_eq_zero_iff.mp hn.length
    exact holds_nil.congr (Nat.mod_one _).symm
  | cons aj a ih =>
    intro pn width k n ha hn hle
    obtain rfl : a.length + 1 = width := ha.length
    obtain ⟨haj, k, ha', rfl⟩ := ha.of_cons
    cases pn with
    | nil => exact absurd hn.length.symm (Nat.succ_ne_zero _)
    | cons p pn =>
      have hpass := hn.accumulate haj hb hle (Nat.two_pow_pos 32 : 0 < 2 ^ 32)
      rw [BaseUint.mulFrom]
      cases hacc : BaseUint.accumulate aj (p :: pn) b 0 with
      | nil =>
        rw [hacc] at hpass
        exact absurd hpass.length.symm (Nat.succ_ne_zero _)
      | cons q qs =>
        rw [hacc] at hpass
        obtain ⟨hq, r, hr, heq⟩ := hpass.of_cons
        refine ((ih ha' hr (Nat.le_of_succ_le hle)).cons hq).congr ?_
        -- the words from `j + 1` on get the rest of the product
        have hrest := mod_words q (r + k * m) a.length
        rw [Nat.div_eq_of_lt hq, Nat.mod_eq_of_lt hq, Nat.zero_add] at hrest
        rw [hrest, Nat.mul_add, ← Nat.add_assoc, ← heq, Nat.zero_add, Nat.mod_add_mod]
        congr 1
        ring

theorem Holds.increment : ∀ {pn : List ℕ} {width n : ℕ}, Holds width pn n →
    Holds width (increment pn) ((n + 1) % 2 ^ (32 * width)) := by
  intro pn
  induction pn with
  | nil =>
    intro width n h
    obtain rfl : 0 = width := h.length
    exact holds_nil.congr (Nat.mod_one _).symm
  | cons w pn ih =>
    intro width n h
    obtain rfl : pn.length + 1 = width := h.length
    obtain ⟨hw, m, hm, rfl⟩ := h.of_cons
    have hwords := mod_words (w + 1) m pn.length
    rw [BaseUint.increment]
    by_cases hfull : (w + 1) % 2 ^ 32 = 0
    · have hnext : (w + 1) / 2 ^ 32 = 1 := by omega
      rw [hfull, hnext, Nat.add_comm 1 m] at hwords
      rw [if_pos hfull]
      refine ((ih hm).cons (Nat.two_pow_pos 32)).congr (hwords.trans ?_)
      rw [Nat.add_right_comm]
    · have hlt : w + 1 < 2 ^ 32 := by omega
      have hsame : m % 2 ^ (32 * pn.length) = m := Nat.mod_eq_of_lt hm.lt
      rw [Nat.mod_eq_of_lt hlt, Nat.div_eq_of_lt hlt, Nat.zero_add, hsame] at hwords
      rw [if_neg hfull]
      refine (hm.cons hlt).congr (hwords.trans ?_)
      rw [Nat.add_right_comm]

theorem Holds.complement : ∀ {pn : List ℕ} {width n : ℕ}, Holds width pn n →
    Holds width (pn.map fun w => 2 ^ 32 - 1 - w) (2 ^ (32 * width) - 1 - n) := by
  intro pn
  induction pn with
  | nil =>
    intro width n h
    obtain rfl : 0 = width := h.length
    exact holds_nil.congr (by simp)
  | cons w pn ih =>
    intro width n h
    obtain rfl : pn.length + 1 = width := h.length
    obtain ⟨hw, m, hm, rfl⟩ := h.of_cons
    have hlt := hm.lt
    refine ((ih hm).cons (show 2 ^ 32 - 1 - w < 2 ^ 32 by omega)).congr ?_
    rw [Nat.mul_succ, Nat.pow_add]
    omega

theorem Holds.subtract (hn : Holds width pn n)
    (hm : Holds width b m) (hle : m ≤ n) : Holds width (subtract pn b) (n - m) := by
  have hlt := hm.lt
  have hsucc : 2 ^ (32 * width) - 1 - m + 1 = 2 ^ (32 * width) - m := by omega
  have hneg : Holds width (negate b) ((2 ^ (32 * width) - m) % 2 ^ (32 * width)) := by
    rw [← hsucc]
    exact hm.complement.increment
  refine (hn.accumulate (by decide) hneg le_rfl (Nat.two_pow_pos 32)).congr ?_
  rw [Nat.zero_add, Nat.one_mul, Nat.add_mod_mod]
  have hsum : n + (2 ^ (32 * width) - m) = n - m + 2 ^ (32 * width) := by omega
  rw [hsum, Nat.add_mod_right]
  exact Nat.mod_eq_of_lt (lt_of_le_of_lt (Nat.sub_le n m) hn.lt)

/-! ### Shifts -/

theorem or_beside {i hi lo : ℕ} (h : lo < 2 ^ i) : lo ||| 2 ^ i * hi = lo + 2 ^ i * hi := by
  rw [Nat.or_comm, ← Nat.two_pow_add_eq_or_of_lt h, Nat.add_comm]

theorem Holds.shlBits {s : ℕ} (hs : s < 32) : ∀ {pn : List ℕ} {width n below : ℕ},
    Holds width pn n → below < 2 ^ 32 →
      Holds width (shlBits s below pn) ((below / 2 ^ (32 - s) + 2 ^ s * n) % 2 ^ (32 * width)) := by
  have hpow : 2 ^ s * 2 ^ (32 - s) = 2 ^ 32 := by
    rw [← Nat.pow_add]
    congr 1
    omega
  intro pn
  induction pn with
  | nil =>
    intro width n below h _
    obtain rfl : 0 = width := h.length
    exact holds_nil.congr (Nat.mod_one _).symm
  | cons w pn ih =>
    intro width n below h hbelow
    obtain rfl : pn.length + 1 = width := h.length
    obtain ⟨hw, m, hm, rfl⟩ := h.of_cons
    have hcarried : (if s ≠ 0 then below >>> (32 - s) else 0) = below / 2 ^ (32 - s) := by
      rcases eq_or_ne s 0 with rfl | hne
      · exact (Nat.div_eq_of_lt hbelow).symm
      · rw [if_pos hne, Nat.shiftRight_eq_div_pow]
    have hlow : below / 2 ^ (32 - s) < 2 ^ s := by
      apply Nat.div_lt_of_lt_mul
      rwa [Nat.mul_comm, hpow]
    have hkept : w <<< s % 2 ^ 32 = 2 ^ s * (w % 2 ^ (32 - s)) := by
      rw [Nat.shiftLeft_eq, Nat.mul_comm, ← hpow, Nat.mul_mod_mul_left]
    have hlt : below / 2 ^ (32 - s) + 2 ^ s * (w % 2 ^ (32 - s)) < 2 ^ 32 := by
      have hmod := Nat.mul_le_mul_left (2 ^ s) (Nat.mod_lt w (Nat.two_pow_pos (32 - s)))
      rw [hpow, Nat.mul_succ] at hmod
      omega
    -- the word and what goes over to the next one
    have hsplit : below / 2 ^ (32 - s) + 2 ^ s * w = below / 2 ^ (32 - s) +
        2 ^ s * (w % 2 ^ (32 - s)) + 2 ^ 32 * (w / 2 ^ (32 - s)) := by
      rw [Nat.add_assoc, ← hpow, Nat.mul_assoc, ← Nat.mul_add, Nat.mod_add_div]
    have hwords := mod_words (below / 2 ^ (32 - s) + 2 ^ s * w) (2 ^ s * m) pn.length
    rw [hsplit, Nat.add_mul_mod_self_left, Nat.mod_eq_of_lt hlt, Nat.add_mul_div_left _ _
      (Nat.two_pow_pos 32), Nat.div_eq_of_lt hlt, Nat.zero_add, ← hsplit] at hwords
    rw [BaseUint.shlBits, hcarried, hkept, or_beside hlow]
    refine ((ih hm hw).cons hlt).congr (hwords.trans ?_)
    congr 1
    ring

theorem Holds.take : ∀ {pn : List ℕ} {width n : ℕ} (k : ℕ), Holds width pn n → k ≤ width →
    Holds k (pn.take k) (n % 2 ^ (32 * k)) := by
  intro pn
  induction pn with
  | nil =>
    intro width n k h hk
    obtain rfl : 0 = width := h.length
    obtain rfl : k = 0 := Nat.le_zero.mp hk
    exact holds_nil.congr (Nat.mod_one _).symm
  | cons w pn ih =>
    intro width n k h hk
    obtain rfl : pn.length + 1 = width := h.length
    obtain ⟨hw, m, hm, rfl⟩ := h.of_cons
    cases k with
    | zero => exact holds_nil.congr (Nat.mod_one _).symm
    | succ k =>
      have hwords := mod_words w m k
      rw [Nat.mod_eq_of_lt hw, Nat.div_eq_of_lt hw, Nat.zero_add] at hwords
      exact ((ih k hm (Nat.le_of_succ_le_succ hk)).cons hw).congr hwords

theorem Holds.zeros (h : Holds width pn n) : ∀ k,
    Holds (k + width) (List.replicate k 0 ++ pn) (n * 2 ^ (32 * k)) := by
  intro k
  induction k with
  | zero =>
    rw [Nat.zero_add]
    exact h.congr (Nat.mul_one n).symm
  | succ k ih =>
    rw [Nat.succ_add]
    refine (ih.cons (Nat.two_pow_pos 32)).congr ?_
    rw [Nat.mul_succ, Nat.pow_add]
    ring

theorem Holds.shiftLeft (h : Holds width pn n) (shift : ℕ) :
    Holds width (shiftLeft pn shift) (n * 2 ^ shift % 2 ^ (32 * width)) := by
  have hmoved := (h.zeros (shift / 32)).take width (Nat.le_add_left _ _)
  rw [BaseUint.shiftLeft, h.length]
  refine (hmoved.shlBits (Nat.mod_lt shift (by decide)) (Nat.two_pow_pos 32)).congr ?_
  rw [Nat.zero_div, Nat.zero_add, Nat.mul_mod_mod]
  congr 1
  calc 2 ^ (shift % 32) * (n * 2 ^ (32 * (shift / 32)))
      = n * 2 ^ (32 * (shift / 32) + shift % 32) := by rw [Nat.pow_add]; ring
    _ = n * 2 ^ shift := by rw [Nat.div_add_mod]

theorem Holds.headD (h : Holds width pn n) :
    pn.headD 0 = n % 2 ^ 32 := by
  cases pn with
  | nil => rw [← h.value]; rfl
  | cons w pn =>
    rw [← h.value, wordsValue, Nat.add_mul_mod_self_left]
    exact (Nat.mod_eq_of_lt (h.words w List.mem_cons_self)).symm

theorem Holds.shrBits {s : ℕ} (hs : s < 32) : ∀ {pn : List ℕ} {width n : ℕ}, Holds width pn n →
    Holds width (shrBits s pn) (n / 2 ^ s) := by
  have hpow : 2 ^ s * 2 ^ (32 - s) = 2 ^ 32 := by
    rw [← Nat.pow_add]
    congr 1
    omega
  intro pn
  induction pn with
  | nil =>
    intro width n h
    obtain rfl : n = 0 := h.value.symm
    exact h.congr (Nat.zero_div _).symm
  | cons w pn ih =>
    intro width n h
    obtain rfl : pn.length + 1 = width := h.length
    obtain ⟨hw, m, hm, rfl⟩ := h.of_cons
    have hcarried : (if s ≠ 0 then pn.headD 0 <<< (32 - s) % 2 ^ 32 else 0) =
        2 ^ (32 - s) * (m % 2 ^ s) := by
      rcases eq_or_ne s 0 with rfl | hne
      · rw [if_neg (by simp), Nat.pow_zero, Nat.mod_one, Nat.mul_zero]
      · rw [if_pos hne, hm.headD, Nat.shiftLeft_eq, Nat.mul_comm, ← hpow, Nat.mul_comm (2 ^ s),
          Nat.mul_mod_mul_left, Nat.mod_mod_of_dvd _ (Dvd.intro_left _ rfl)]
    have hlow : w / 2 ^ s < 2 ^ (32 - s) := by
      apply Nat.div_lt_of_lt_mul
      rwa [hpow]
    have hlt : w / 2 ^ s + 2 ^ (32 - s) * (m % 2 ^ s) < 2 ^ 32 := by
      have hmod := Nat.mul_le_mul_left (2 ^ (32 - s)) (Nat.mod_lt m (Nat.two_pow_pos s))
      rw [Nat.mul_comm _ (2 ^ s), hpow, Nat.mul_succ] at hmod
      omega
    rw [BaseUint.shrBits, hcarried, Nat.shiftRight_eq_div_pow, Nat.or_comm, or_beside hlow]
    refine ((ih hm).cons hlt).congr ?_
    calc w / 2 ^ s + 2 ^ (32 - s) * (m % 2 ^ s) + 2 ^ 32 * (m / 2 ^ s)
        = w / 2 ^ s + 2 ^ (32 - s) * (m % 2 ^ s + 2 ^ s * (m / 2 ^ s)) := by
          rw [← hpow]
          ring
      _ = w / 2 ^ s + 2 ^ (32 - s) * m := by rw [Nat.mod_add_div]
      _ = (w + 2 ^ 32 * m) / 2 ^ s := by
          rw [← hpow, Nat.mul_assoc, Nat.add_mul_div_left _ _ (Nat.two_pow_pos s)]

/-! ### From the highest word on -/

theorem wordsValue_concat (l : List ℕ) (w : ℕ) :
    wordsValue (l ++ [w]) = wordsValue l + 2 ^ (32 * l.length) * w := by
  induction l with
  | nil => simp [wordsValue]
  | cons v l ih =>
    rw [List.cons_append, wordsValue, ih, wordsValue, List.length_cons, Nat.mul_succ, Nat.pow_add]
    ring

theorem wordsValue_lt {l : List ℕ} (h : ∀ w ∈ l, w < 2 ^ 32) :
    wordsValue l < 2 ^ (32 * l.length) :=
  Holds.lt ⟨rfl, h, rfl⟩

theorem compareLoop_nonneg : ∀ {as bs : List ℕ}, as.length = bs.length →
    (∀ w ∈ as, w < 2 ^ 32) → (∀ w ∈ bs, w < 2 ^ 32) →
      (0 ≤ compareLoop as bs ↔ wordsValue bs.reverse ≤ wordsValue as.reverse) := by
  intro as
  induction as with
  | nil =>
    intro bs hlength _ _
    obtain rfl := List.length_eq_zero_iff.mp hlength.symm
    simp [compareLoop]
  | cons a as ih =>
    intro bs hlength has hbs
    cases bs with
    | nil => cases hlength
    | cons b bs =>
      have hlen : as.length = bs.length := Nat.succ.inj hlength
      have has' : ∀ w ∈ as, w < 2 ^ 32 := fun w hw => has w (List.mem_cons_of_mem a hw)
      have hbs' : ∀ w ∈ bs, w < 2 ^ 32 := fun w hw => hbs w (List.mem_cons_of_mem b hw)
      have hva : wordsValue as.reverse < 2 ^ (32 * bs.length) := by
        have hlt := wordsValue_lt fun w hw => has' w (List.mem_reverse.mp hw)
        rwa [List.length_reverse, hlen] at hlt
      have hvb : wordsValue bs.reverse < 2 ^ (32 * bs.length) := by
        have hlt := wordsValue_lt fun w hw => hbs' w (List.mem_reverse.mp hw)
        rwa [List.length_reverse] at hlt
      rw [List.reverse_cons, List.reverse_cons, wordsValue_concat, wordsValue_concat,
        List.length_reverse, List.length_reverse, hlen, compareLoop]
      generalize 2 ^ (32 * bs.length) = P at hva hvb ⊢
      rcases lt_trichotomy a b with hlt | rfl | hgt
      · have hmul := Nat.mul_le_mul_left P hlt
        rw [Nat.mul_succ] at hmul
        rw [if_pos hlt]
        omega
      · rw [if_neg (lt_irrefl a), if_neg (lt_irrefl a), ih hlen has' hbs']
        omega
      · have hmul := Nat.mul_le_mul_left P hgt
        rw [Nat.mul_succ] at hmul
        rw [if_neg hgt.not_gt, if_pos hgt]
        omega

variable {a : List ℕ}

theorem Holds.compareTo (hn : Holds width a n)
    (hm : Holds width b m) : 0 ≤ compareTo a b ↔ m ≤ n := by
  have hloop := @compareLoop_nonneg a.reverse b.reverse
    (by rw [List.length_reverse, List.length_reverse, hn.length, hm.length])
    (fun w hw => hn.words w (List.mem_reverse.mp hw))
    (fun w hw => hm.words w (List.mem_reverse.mp hw))
  rwa [List.reverse_reverse, List.reverse_reverse, hn.value, hm.value] at hloop

theorem size_eq {k : ℕ} (hle : 2 ^ k ≤ m) (hlt : m < 2 ^ (k + 1)) : Nat.size m = k + 1 :=
  le_antisymm (Nat.size_le.mpr hlt) (Nat.lt_size.mpr hle)

theorem wordBits_eq {w : ℕ} (hpos : w ≠ 0) : ∀ {nbits : ℕ}, w < 2 ^ (nbits + 1) →
    wordBits w nbits = Nat.size w := by
  intro nbits
  induction nbits with
  | zero =>
    intro hlt
    exact (size_eq (Nat.pos_of_ne_zero hpos) hlt).symm
  | succ nbits ih =>
    intro hlt
    rw [wordBits, Nat.one_shiftLeft, Nat.and_two_pow]
    by_cases hle : 2 ^ (nbits + 1) ≤ w
    · rw [Nat.testBit_of_two_pow_le_and_two_pow_add_one_gt hle hlt, if_pos (by simp),
        size_eq hle hlt]
    · have hless := Nat.not_le.mp hle
      rw [Nat.testBit_lt_two_pow hless, if_neg (by simp), ih hless]

theorem bitsLoop_eq {l : List ℕ} (h : ∀ w ∈ l, w < 2 ^ 32) :
    bitsLoop l = Nat.size (wordsValue l.reverse) := by
  induction l with
  | nil => rfl
  | cons w l ih =>
    have hl : ∀ v ∈ l, v < 2 ^ 32 := fun v hv => h v (List.mem_cons_of_mem w hv)
    have hlow : wordsValue l.reverse < 2 ^ (32 * l.length) := by
      have hlt := wordsValue_lt fun v hv => hl v (List.mem_reverse.mp hv)
      rwa [List.length_reverse] at hlt
    rw [List.reverse_cons, wordsValue_concat, List.length_reverse, bitsLoop]
    by_cases hpos : w = 0
    · rw [if_neg (not_not.mpr hpos), hpos, Nat.mul_zero, Nat.add_zero, ih hl]
    · rw [if_pos hpos, wordBits_eq hpos (h w List.mem_cons_self)]
      obtain ⟨k, hk⟩ : ∃ k, Nat.size w = k + 1 :=
        ⟨Nat.size w - 1, by have := Nat.size_pos.mpr (Nat.pos_of_ne_zero hpos); omega⟩
      have hge : 2 ^ k ≤ w := Nat.lt_size.mp (by omega)
      have hlt : w < 2 ^ (k + 1) := hk ▸ Nat.lt_size_self w
      have hgeP := Nat.mul_le_mul_left (2 ^ (32 * l.length)) hge
      have hltP := Nat.mul_le_mul_left (2 ^ (32 * l.length)) hlt
      rw [← Nat.pow_add] at hgeP
      rw [Nat.mul_succ, ← Nat.pow_add] at hltP
      rw [hk, ← Nat.add_assoc]
      refine (size_eq (by omega) ?_).symm
      rw [Nat.add_assoc]
      omega

theorem Holds.bits (h : Holds width pn n) : bits pn = Nat.size n := by
  rw [BaseUint.bits, bitsLoop_eq fun w hw => h.words w (List.mem_reverse.mp hw),
    List.reverse_reverse, h.value]

/-! ### The division -/

theorem holds_setBit {s : ℕ} (hs : s < 32) : ∀ {pn : List ℕ} {width n i : ℕ}, Holds width pn n →
    i < width → Holds width (pn.modify i fun w => w ||| 1 <<< s) (n ||| 2 ^ (32 * i + s)) := by
  intro pn
  induction pn with
  | nil =>
    intro width n i h hi
    obtain rfl : 0 = width := h.length
    exact absurd hi (Nat.not_lt_zero i)
  | cons w pn ih =>
    intro width n i h hi
    obtain rfl : pn.length + 1 = width := h.length
    obtain ⟨hw, m, hm, rfl⟩ := h.of_cons
    cases i with
    | zero =>
      have hbit : w ||| 1 <<< s < 2 ^ 32 := by
        rw [Nat.one_shiftLeft]
        exact Nat.or_lt_two_pow hw (Nat.pow_lt_pow_right (by decide) hs)
      refine (hm.cons hbit).congr ?_
      rw [← or_beside hbit, ← or_beside hw, Nat.one_shiftLeft, Nat.mul_zero, Nat.zero_add,
        Nat.or_assoc, Nat.or_assoc, Nat.or_comm (2 ^ s)]
    | succ i =>
      refine ((ih hm (Nat.lt_of_succ_lt_succ hi)).cons hw).congr ?_
      have hhigh : 2 ^ 32 * (m ||| 2 ^ (32 * i + s)) = 2 ^ 32 * m ||| 2 ^ (32 * (i + 1) + s) := by
        have hor := @Nat.shiftLeft_or_distrib 32 m (2 ^ (32 * i + s))
        rw [Nat.shiftLeft_eq, Nat.shiftLeft_eq, Nat.shiftLeft_eq, ← Nat.pow_add] at hor
        rw [Nat.mul_comm, hor, Nat.mul_comm m]
        congr 2
        omega
      rw [← or_beside hw, hhigh, ← Nat.or_assoc, or_beside hw]

theorem Holds.divLoop : ∀ {k : ℕ} {num div quotient : List ℕ} {x y z : UInt256},
    Holds 8 num x.toNat → Holds 8 div y.toNat → Holds 8 quotient z.toNat → k ≤ 256 →
      Holds 8 (divLoop k num div quotient) (Stonecoin.divLoop k x y z).toNat := by
  intro k
  induction k with
  | zero => exact fun _ _ hz _ => hz
  | succ shift ih =>
    intro num div quotient x y z hx hy hz hk
    have hnext : Holds 8 (BaseUint.shiftRight div 1) (y >>> 1).toNat := by
      have hbits := @Holds.shrBits 1 (by decide) _ _ _ hy
      rw [BitVec.toNat_ushiftRight, Nat.shiftRight_eq_div_pow]
      show Holds 8 (BaseUint.shrBits 1 (div ++ [])) _
      rwa [List.append_nil]
    rw [BaseUint.divLoop, Stonecoin.divLoop]
    by_cases hle : y ≤ x
    · have hsub : Holds 8 (BaseUint.subtract num div) (x - y).toNat := by
        rw [BitVec.toNat_sub_of_le hle]
        exact hx.subtract hy hle
      have hset : Holds 8 (setBit quotient shift) (z ||| ((1 : UInt256) <<< shift)).toNat := by
        have hbit := holds_setBit (Nat.mod_lt shift (by decide)) hz
          (show shift / 32 < 8 by omega)
        rw [Nat.div_add_mod] at hbit
        rw [BitVec.toNat_or, BitVec.toNat_shiftLeft, Nat.shiftLeft_eq]
        show Holds 8 _ (z.toNat ||| 1 * 2 ^ shift % 2 ^ 256)
        rwa [Nat.one_mul, Nat.mod_eq_of_lt (Nat.pow_lt_pow_right (by decide) (by omega))]
      rw [if_pos hle, if_pos ((hx.compareTo hy).mpr hle)]
      exact ih hsub hnext hset (Nat.le_of_succ_le hk)
    · rw [if_neg hle, if_neg fun hge => hle ((hx.compareTo hy).mp hge)]
      exact ih hx hnext hz (Nat.le_of_succ_le hk)

theorem Holds.divide {x y : UInt256} (hx : Holds 8 a x.toNat)
    (hy : Holds 8 b y.toNat) : (divide a b = none ↔ Stonecoin.divide x y = none) ∧
      ∀ z, Stonecoin.divide x y = some z → ∃ q, divide a b = some q ∧ Holds 8 q z.toNat := by
  have hzero : Holds 8 (a.map fun _ => 0) (0 : UInt256).toNat := hx.length ▸ holds_zeros a
  have hsize : Nat.size x.toNat ≤ 256 := Nat.size_le.mpr x.isLt
  unfold BaseUint.divide Stonecoin.divide
  dsimp only
  rw [hx.bits, hy.bits]
  split_ifs with hnone hless
  · exact ⟨by simp, (fun z hz => by cases hz)⟩
  · refine ⟨by simp, fun z hz => ⟨_, rfl, ?_⟩⟩
    cases hz
    exact hzero
  · refine ⟨by simp, fun z hz => ⟨_, rfl, ?_⟩⟩
    cases hz
    refine hx.divLoop ?_ hzero (by omega)
    rw [BitVec.toNat_shiftLeft, Nat.shiftLeft_eq]
    exact hy.shiftLeft _

theorem Holds.product (hn : Holds width a n)
    (hm : Holds width b m) : Holds width (product a b) (n * m % 2 ^ (32 * width)) := by
  refine (hm.mulFrom hn (hn.length ▸ holds_zeros a) le_rfl).congr ?_
  rw [Nat.zero_add]

theorem Holds.mulLoop (h : Holds width a n) (b32 : UInt32) :
    Holds width (Stonecoin.mulLoop b32.toNat a 0) (n * b32.toNat % 2 ^ (32 * width)) := by
  have hform : ∀ (pn : List ℕ) (carry : ℕ), (Stonecoin.mulLoop b32.toNat pn carry).length = pn.length ∧
      ∀ w ∈ Stonecoin.mulLoop b32.toNat pn carry, w < 2 ^ 32 := by
    intro pn
    induction pn with
    | nil => exact fun _ => ⟨rfl, fun w hw => absurd hw List.not_mem_nil⟩
    | cons w pn ih =>
      intro carry
      refine ⟨congrArg Nat.succ (ih _).1, fun v hv => ?_⟩
      rcases List.mem_cons.mp hv with rfl | hv
      · exact Nat.mod_lt _ (Nat.two_pow_pos 32)
      · exact (ih _).2 v hv
  obtain ⟨hlength, hwords⟩ := hform a 0
  refine ⟨hlength.trans h.length, hwords, ?_⟩
  rw [wordsValue_mulLoop b32.toNat_lt h.words (Nat.two_pow_pos 32), h.value, h.length, Nat.add_zero]

/-- **The arithmetic of `base_uint<256>`**: the quotient with its remainder, and both products up
to the overflow. -/
theorem base_uint_arithmetic {a b : List ℕ} {n m : ℕ} (ha : Holds 8 a n) (hb : Holds 8 b m) :
    (divide a b = none ↔ m = 0) ∧
      (m ≠ 0 → ∃ q c r, divide a b = some q ∧ Holds 8 q c ∧ n = c * m + r ∧ r < m) ∧
      Holds 8 (product a b) (n * m % 2 ^ 256) ∧
      ∀ b32 : UInt32, Holds 8 (mulLoop b32.toNat a 0) (n * b32.toNat % 2 ^ 256) := by
  have hx : Holds 8 a (BitVec.ofNat 256 n).toNat := by
    rwa [BitVec.toNat_ofNat, Nat.mod_eq_of_lt ha.lt]
  have hy : Holds 8 b (BitVec.ofNat 256 m).toNat := by
    rwa [BitVec.toNat_ofNat, Nat.mod_eq_of_lt hb.lt]
  obtain ⟨hnone, hsome⟩ := hx.divide hy
  have hdiv : m ≠ 0 → ∃ q, divide a b = some q ∧ Holds 8 q (n / m) := by
    intro hpos
    obtain ⟨z, hz, hvalue⟩ := divide_eq (BitVec.ofNat 256 n)
      (show 0 < (BitVec.ofNat 256 m).toNat by rw [← hy.value, hb.value]; omega)
    rw [← hx.value, ← hy.value, ha.value, hb.value] at hvalue
    exact hvalue ▸ hsome z hz
  refine ⟨⟨fun hthrow => ?_, ?_⟩, fun hpos => ?_, ha.product hb, ha.mulLoop⟩
  · by_contra hpos
    obtain ⟨q, hq, -⟩ := hdiv hpos
    rw [hthrow] at hq
    cases hq
  · rintro rfl
    exact hnone.mpr rfl
  · obtain ⟨q, hq, hvalue⟩ := hdiv hpos
    refine ⟨q, n / m, n % m, hq, hvalue, ?_, Nat.mod_lt n (Nat.pos_of_ne_zero hpos)⟩
    rw [Nat.mul_comm, Nat.div_add_mod]

theorem base_uint_arithmetic_seven :
    ∃ q c r, divide [7, 0, 0, 0, 0, 0, 0, 0] [2, 0, 0, 0, 0, 0, 0, 0] = some q ∧ Holds 8 q c ∧
      7 = c * 2 + r ∧ r < 2 :=
  (base_uint_arithmetic (⟨rfl, by decide, rfl⟩ : Holds 8 [7, 0, 0, 0, 0, 0, 0, 0] 7)
    (⟨rfl, by decide, rfl⟩ : Holds 8 [2, 0, 0, 0, 0, 0, 0, 0] 2)).2.1 (by decide)

end Stonecoin.BaseUint
