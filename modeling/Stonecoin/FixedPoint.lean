/-
`ParseFixedPoint` (`utilstrencodings.cpp`): a decimal number, with fraction and exponent, as
an integer number of units of 10^-decimals.

Strings are lists of characters.  The mantissa is kept without its trailing zeros, which are
counted.  It stays below 10^18, so that no `int64_t` overflows and integers do for it.
-/
import Mathlib.Algebra.Field.Rat
import Mathlib.Data.Rat.Cast.Defs
import Mathlib.Tactic.Ring

namespace Stonecoin.FixedPoint

/-! ### The function -/

/-- The largest decimal all of whose digits are free. -/
def UPPER_BOUND : ℤ := 1000000000000000000 - 1

def isDigit (c : Char) : Bool := '0' ≤ c ∧ c ≤ '9'

def digit (c : Char) : ℕ := c.toNat - '0'.toNat

/-- A number times ten, so many times, with a test for overflow in front of each. -/
def timesTen (overflow : ℤ → Bool) : ℕ → ℤ → Option ℤ
  | 0, mantissa => some mantissa
  | n + 1, mantissa => if overflow mantissa then none else timesTen overflow n (mantissa * 10)

/-- The mantissa, and how many zeros are behind it. -/
structure Mantissa where
  mantissa : ℤ
  tzeros : ℕ
deriving DecidableEq, Repr

def processMantissaDigit (ch : Char) (m : Mantissa) : Option Mantissa :=
  if ch = '0' then some { m with tzeros := m.tzeros + 1 }
  else do
    let mantissa ← timesTen (fun mantissa => UPPER_BOUND / 10 < mantissa) (m.tzeros + 1) m.mantissa
    some ⟨mantissa + digit ch, 0⟩

/-- The loop over the digits of the mantissa, with their number and what follows them. -/
def mantissaDigits : List Char → Mantissa → Option (Mantissa × ℕ × List Char)
  | [], m => some (m, 0, [])
  | ch :: val, m =>
    if isDigit ch then do
      let m ← processMantissaDigit ch m
      let (m, n, val) ← mantissaDigits val m
      some (m, n + 1, val)
    else some (m, 0, ch :: val)

/-- The digits in front of the point: a single zero, or digits that start with another one. -/
def integerPart : List Char → Option (Mantissa × List Char)
  | [] => none
  | ch :: val =>
    if ch = '0' then some (⟨0, 0⟩, val)
    else if '1' ≤ ch ∧ ch ≤ '9' then do
      let (m, _, val) ← mantissaDigits (ch :: val) ⟨0, 0⟩
      some (m, val)
    else none

/-- The point and the digits behind it. -/
def fraction (m : Mantissa) : List Char → Option (Mantissa × ℕ × List Char)
  | [] => some (m, 0, [])
  | ch :: val =>
    if ch = '.' then if val.head?.any isDigit then mantissaDigits val m else none
    else some (m, 0, ch :: val)

def exponentDigits : List Char → ℤ → Option (ℤ × List Char)
  | [], exponent => some (exponent, [])
  | ch :: val, exponent =>
    if isDigit ch then
      if UPPER_BOUND / 10 < exponent then none
      else exponentDigits val (exponent * 10 + digit ch)
    else some (exponent, ch :: val)

def exponentSign : List Char → Bool × List Char
  | [] => (false, [])
  | ch :: val => if ch = '+' then (false, val) else if ch = '-' then (true, val) else (false, ch :: val)

def exponentPart : List Char → Option (ℤ × List Char)
  | [] => some (0, [])
  | ch :: val =>
    if ch = 'e' ∨ ch = 'E' then
      let exponent_sign := (exponentSign val).1
      let val := (exponentSign val).2
      if val.head?.any isDigit then do
        let (exponent, val) ← exponentDigits val 0
        some (if exponent_sign then -exponent else exponent, val)
      else none
    else some (0, ch :: val)

def mantissaSign : List Char → Bool × List Char
  | [] => (false, [])
  | ch :: val => if ch = '-' then (true, val) else (false, ch :: val)

/-- The end of the function. -/
def convert (mantissa exponent : ℤ) : Option ℤ :=
  if exponent < 0 then none
  else if 18 ≤ exponent then none
  else do
    let mantissa ← timesTen
      (fun mantissa => UPPER_BOUND / 10 < mantissa || mantissa < -(UPPER_BOUND / 10))
      exponent.toNat mantissa
    if UPPER_BOUND < mantissa ∨ mantissa < -UPPER_BOUND then none else some mantissa

def parseFixedPoint (val : List Char) (decimals : ℤ) : Option ℤ := do
  let mantissa_sign := (mantissaSign val).1
  let (m, val) ← integerPart (mantissaSign val).2
  let (m, point_ofs, val) ← fraction m val
  let (exponent, val) ← exponentPart val
  let exponent := exponent - point_ofs + m.tzeros + decimals
  let mantissa := if mantissa_sign then -m.mantissa else m.mantissa
  if val ≠ [] then none else convert mantissa exponent

/-! ### Values of digits -/

/-- The number that is written with these digits. -/
def digitsValue (ds : List Char) : ℕ := ds.foldl (fun n c => 10 * n + digit c) 0

theorem foldl_digits (ds : List Char) (n : ℕ) :
    ds.foldl (fun n c => 10 * n + digit c) n = n * 10 ^ ds.length + digitsValue ds := by
  induction ds generalizing n with
  | nil => simp [digitsValue]
  | cons c ds ih =>
    rw [digitsValue, List.foldl_cons, List.foldl_cons, ih, ih (10 * 0 + digit c), List.length_cons]
    ring

theorem digitsValue_append (ds es : List Char) :
    digitsValue (ds ++ es) = digitsValue ds * 10 ^ es.length + digitsValue es := by
  rw [digitsValue, List.foldl_append, foldl_digits es]
  rfl

theorem digitsValue_cons (c : Char) (ds : List Char) :
    digitsValue (c :: ds) = digit c * 10 ^ ds.length + digitsValue ds := by
  have h := digitsValue_append [c] ds
  rw [List.singleton_append] at h
  rw [h]
  simp [digitsValue]

def Mantissa.value (m : Mantissa) : ℤ := m.mantissa * 10 ^ m.tzeros

theorem timesTen_eq {overflow : ℤ → Bool} {n : ℕ} {m m' : ℤ} (h : timesTen overflow n m = some m') :
    m' = m * 10 ^ n := by
  induction n generalizing m with
  | zero => rw [← Option.some.inj h, pow_zero, mul_one]
  | succ n ih =>
    rw [timesTen] at h
    by_cases hover : overflow m = true
    · rw [if_pos hover] at h
      cases h
    · rw [if_neg hover] at h
      rw [ih h]
      ring

theorem processMantissaDigit_value {ch : Char} {m m' : Mantissa}
    (h : processMantissaDigit ch m = some m') : m'.value = m.value * 10 + digit ch := by
  by_cases hzero : ch = '0'
  · rw [processMantissaDigit, if_pos hzero] at h
    obtain rfl := Option.some.inj h
    subst hzero
    have hdigit : digit '0' = 0 := rfl
    rw [Mantissa.value, Mantissa.value, hdigit]
    push_cast
    ring
  · rw [processMantissaDigit, if_neg hzero] at h
    obtain ⟨mantissa, hmantissa, hm'⟩ := Option.bind_eq_some_iff.mp h
    obtain rfl := Option.some.inj hm'
    rw [Mantissa.value, Mantissa.value, timesTen_eq hmantissa]
    ring

theorem mantissaDigits_spec : ∀ {val : List Char} {m m' : Mantissa} {n : ℕ} {rest : List Char},
    mantissaDigits val m = some (m', n, rest) → ∃ ds, val = ds ++ rest ∧ n = ds.length ∧
      (∀ c ∈ ds, isDigit c = true) ∧ rest.head?.all (fun c => !isDigit c) = true ∧
      m'.value = m.value * 10 ^ ds.length + digitsValue ds
  | [], m, m', n, rest, h => by
    cases h
    exact ⟨[], rfl, rfl, by simp, rfl, by simp [digitsValue]⟩
  | ch :: val, m, m', n, rest, h => by
    rw [mantissaDigits] at h
    by_cases hch : isDigit ch = true
    · rw [if_pos hch] at h
      obtain ⟨m₁, hm₁, h⟩ := Option.bind_eq_some_iff.mp h
      obtain ⟨⟨m₂, n₂, rest₂⟩, hrest, h⟩ := Option.bind_eq_some_iff.mp h
      cases h
      obtain ⟨ds, rfl, rfl, hds, hhead, hvalue⟩ := mantissaDigits_spec hrest
      refine ⟨ch :: ds, rfl, rfl, ?_, hhead, ?_⟩
      · intro c hc
        rcases List.mem_cons.mp hc with rfl | hc
        · exact hch
        · exact hds c hc
      · rw [hvalue, processMantissaDigit_value hm₁, digitsValue_cons, List.length_cons]
        push_cast
        ring
    · rw [if_neg hch] at h
      cases h
      exact ⟨[], rfl, rfl, by simp, by simpa using hch, by simp [digitsValue]⟩

/-! ### What is accepted -/

/-- The parts of a number that is accepted, with the value of its exponent. -/
structure Parts where
  negative : Bool
  whole : List Char
  fractional : List Char
  suffix : List Char
  exponent : ℤ

namespace Parts

/-- A point stands in front of the digits of a fraction. -/
def point (fractional : List Char) : List Char :=
  if fractional = [] then [] else '.' :: fractional

def text (p : Parts) : List Char :=
  (if p.negative then ['-'] else []) ++ (p.whole ++ (point p.fractional ++ p.suffix))

def value (p : Parts) : ℚ :=
  (if p.negative then -1 else 1) * digitsValue (p.whole ++ p.fractional) *
    10 ^ (p.exponent - p.fractional.length)

structure WellFormed (p : Parts) : Prop where
  whole : p.whole ≠ [] ∧ ∀ c ∈ p.whole, isDigit c = true
  fractional : ∀ c ∈ p.fractional, isDigit c = true
  suffix : p.suffix = [] ∧ p.exponent = 0 ∨ ∃ c rest, p.suffix = c :: rest ∧ (c = 'e' ∨ c = 'E')

end Parts

theorem integerPart_spec {val rest : List Char} {m : Mantissa}
    (h : integerPart val = some (m, rest)) : ∃ ds, val = ds ++ rest ∧ ds ≠ [] ∧
      (∀ c ∈ ds, isDigit c = true) ∧ m.value = digitsValue ds := by
  rcases val with - | ⟨ch, val⟩
  · cases h
  rw [integerPart] at h
  by_cases hzero : ch = '0'
  · rw [if_pos hzero] at h
    cases h
    subst hzero
    refine ⟨['0'], rfl, List.cons_ne_nil _ _, fun c hc => ?_, rfl⟩
    obtain rfl := List.mem_singleton.mp hc
    rfl
  · rw [if_neg hzero] at h
    by_cases hch : '1' ≤ ch ∧ ch ≤ '9'
    · rw [if_pos hch] at h
      obtain ⟨⟨m', n, rest'⟩, hdigits, h⟩ := Option.bind_eq_some_iff.mp h
      cases h
      obtain ⟨ds, hval, -, hds, hhead, hvalue⟩ := mantissaDigits_spec hdigits
      have hone : '0' ≤ '1' := by decide
      have hlow : '0' ≤ ch := Char.le_trans hone hch.1
      refine ⟨ds, hval, ?_, hds, by simpa [Mantissa.value] using hvalue⟩
      -- the first character is a digit, so it is not what follows the digits
      rintro rfl
      rw [List.nil_append] at hval
      rw [← hval] at hhead
      simp [isDigit, hlow, hch.2] at hhead
    · rw [if_neg hch] at h
      cases h

theorem fraction_spec {val rest : List Char} {m m' : Mantissa} {n : ℕ}
    (h : fraction m val = some (m', n, rest)) : ∃ ds, val = Parts.point ds ++ rest ∧
      n = ds.length ∧ (∀ c ∈ ds, isDigit c = true) ∧
      m'.value = m.value * 10 ^ ds.length + digitsValue ds := by
  have hnone : ∀ m : Mantissa, m.value = m.value * 10 ^ ([] : List Char).length +
      (digitsValue [] : ℕ) := by
    intro m
    simp [digitsValue]
  rcases val with - | ⟨ch, val⟩
  · cases h
    exact ⟨[], rfl, rfl, by simp, hnone m⟩
  rw [fraction] at h
  by_cases hch : ch = '.'
  · rw [if_pos hch] at h
    by_cases hhead : val.head?.any isDigit = true
    · rw [if_pos hhead] at h
      obtain ⟨ds, hval, hn, hds, hrest, hvalue⟩ := mantissaDigits_spec h
      have hne : ds ≠ [] := by
        rintro rfl
        rw [List.nil_append] at hval
        subst hval
        rcases val with - | ⟨c, val⟩
        · cases hhead
        · simp_all
      refine ⟨ds, ?_, hn, hds, hvalue⟩
      rw [Parts.point, if_neg hne, hch, hval]
      rfl
    · rw [if_neg hhead] at h
      cases h
  · rw [if_neg hch] at h
    cases h
    exact ⟨[], rfl, rfl, by simp, hnone m⟩

theorem exponentPart_spec {val : List Char} {exponent : ℤ}
    (h : exponentPart val = some (exponent, [])) :
    val = [] ∧ exponent = 0 ∨ ∃ c rest, val = c :: rest ∧ (c = 'e' ∨ c = 'E') := by
  rcases val with - | ⟨ch, val⟩
  · cases h
    exact .inl ⟨rfl, rfl⟩
  rw [exponentPart] at h
  by_cases hch : ch = 'e' ∨ ch = 'E'
  · exact .inr ⟨ch, val, rfl, hch⟩
  · rw [if_neg hch] at h
    cases h

theorem mantissaSign_spec (val : List Char) :
    val = (if (mantissaSign val).1 then ['-'] else []) ++ (mantissaSign val).2 := by
  rcases val with - | ⟨ch, val⟩
  · rfl
  · by_cases hch : ch = '-'
    · simp [mantissaSign, hch]
    · simp [mantissaSign, hch]

theorem convert_spec {mantissa exponent v : ℤ} (h : convert mantissa exponent = some v) :
    0 ≤ exponent ∧ v = mantissa * 10 ^ exponent.toNat := by
  rw [convert] at h
  by_cases hneg : exponent < 0
  · rw [if_pos hneg] at h
    cases h
  rw [if_neg hneg] at h
  by_cases hlarge : 18 ≤ exponent
  · rw [if_pos hlarge] at h
    cases h
  rw [if_neg hlarge] at h
  obtain ⟨m, hm, h⟩ := Option.bind_eq_some_iff.mp h
  by_cases hover : UPPER_BOUND < m ∨ m < -UPPER_BOUND
  · rw [if_pos hover] at h
    cases h
  · rw [if_neg hover] at h
    obtain rfl := Option.some.inj h
    exact ⟨Int.not_lt.mp hneg, timesTen_eq hm⟩

theorem parseFixedPoint_sound {val : List Char} {decimals v : ℤ}
    (h : parseFixedPoint val decimals = some v) :
    ∃ p : Parts, val = p.text ∧ p.WellFormed ∧ (v : ℚ) = p.value * 10 ^ decimals := by
  rw [parseFixedPoint] at h
  obtain ⟨⟨m, val₁⟩, hwhole, h⟩ := Option.bind_eq_some_iff.mp h
  obtain ⟨⟨m₂, n, val₂⟩, hfraction, h⟩ := Option.bind_eq_some_iff.mp h
  obtain ⟨⟨exponent, val₃⟩, hexponent, h⟩ := Option.bind_eq_some_iff.mp h
  dsimp only at hfraction hexponent h
  by_cases hrest : val₃ ≠ []
  · rw [if_pos hrest] at h
    cases h
  rw [if_neg hrest] at h
  obtain rfl := not_not.mp hrest
  obtain ⟨whole, hval, hne, hdigits, hvalue⟩ := integerPart_spec hwhole
  obtain ⟨fractional, hval₁, rfl, hfdigits, hfvalue⟩ := fraction_spec hfraction
  obtain ⟨hnonneg, hv⟩ := convert_spec h
  have hsign := mantissaSign_spec val
  refine ⟨⟨(mantissaSign val).1, whole, fractional, val₂, exponent⟩, ?_,
    ⟨⟨hne, hdigits⟩, hfdigits, exponentPart_spec hexponent⟩, ?_⟩
  · rw [Parts.text, ← hval₁, ← hval]
    exact hsign
  · have htotal : (digitsValue (whole ++ fractional) : ℚ) = m₂.mantissa * 10 ^ m₂.tzeros := by
      have hint : ((digitsValue (whole ++ fractional) : ℕ) : ℤ) = m₂.mantissa * 10 ^ m₂.tzeros := by
        rw [digitsValue_append, ← Mantissa.value, hfvalue, hvalue]
        push_cast
        rfl
      exact_mod_cast hint
    have hpow : (10 : ℚ) ^ (exponent - fractional.length + m₂.tzeros + decimals).toNat =
        10 ^ m₂.tzeros * 10 ^ (exponent - fractional.length) * 10 ^ decimals := by
      rw [← zpow_natCast, Int.toNat_of_nonneg hnonneg, zpow_add₀ (by norm_num),
        zpow_add₀ (by norm_num), zpow_natCast]
      ring
    have hmantissa : ((if (mantissaSign val).1 = true then -m₂.mantissa else m₂.mantissa : ℤ) : ℚ) =
        (if (mantissaSign val).1 = true then -1 else 1) * m₂.mantissa := by
      split_ifs
      · push_cast
        ring
      · ring
    rw [hv, Parts.value, Int.cast_mul, hmantissa, Int.cast_pow, Int.cast_ofNat, hpow, htotal]
    ring

end Stonecoin.FixedPoint
