/-
`ParseFixedPoint` accepts exactly the numbers that fit: a string is accepted if it is a number in
JSON syntax whose value is an integer number of units below 10^18.

The mantissa is kept without its trailing zeros.  `Large n` says that however many zeros are
taken off, 10^18 is reached; the mantissa is given up exactly when the digits read so far are
large, and further digits keep them large.
-/
import Mathlib.Algebra.Order.Field.Basic
import Mathlib.Algebra.Order.Ring.Int
import Mathlib.Algebra.Order.Ring.Rat
import Mathlib.Tactic.Linarith
import Mathlib.Tactic.NormNum
import Mathlib.Tactic.Positivity
import Stonecoin.FixedPoint

namespace Stonecoin.FixedPoint

/-! ### Numbers in JSON syntax -/

structure Exponent where
  mark : Char
  sign : Option Char
  digits : List Char

/-- A number as it is written; without a fraction there is no point. -/
structure Number where
  negative : Bool
  whole : List Char
  fractional : List Char
  exponent : Option Exponent

namespace Exponent

variable (e : Exponent)

def text : List Char := e.mark :: (e.sign.toList ++ e.digits)

def value : ℤ := if e.sign = some '-' then -digitsValue e.digits else digitsValue e.digits

structure WellFormed : Prop where
  mark : e.mark = 'e' ∨ e.mark = 'E'
  sign : e.sign = none ∨ e.sign = some '+' ∨ e.sign = some '-'
  nonempty : e.digits ≠ []
  digits : ∀ c ∈ e.digits, isDigit c = true

end Exponent

namespace Number

variable (n : Number)

def exponentText : List Char := (n.exponent.map Exponent.text).getD []

def exponentValue : ℤ := (n.exponent.map Exponent.value).getD 0

def text : List Char :=
  (if n.negative then ['-'] else []) ++
    (n.whole ++ (Parts.point n.fractional ++ n.exponentText))

/-- The digits without the point, as a number. -/
def digits : ℕ := digitsValue (n.whole ++ n.fractional)

def value : ℚ :=
  (if n.negative then -1 else 1) * n.digits * 10 ^ (n.exponentValue - n.fractional.length)

/-- The parts are what JSON has them be: no superfluous leading zeros. -/
structure WellFormed : Prop where
  whole : n.whole = ['0'] ∨ ∃ c ds, n.whole = c :: ds ∧ '1' ≤ c ∧ c ≤ '9' ∧
    ∀ d ∈ ds, isDigit d = true
  fractional : ∀ c ∈ n.fractional, isDigit c = true
  exponent : ∀ e, n.exponent = some e → e.WellFormed

end Number

/-! ### The loops over digits -/

/-- Digits end where the string does or something else follows. -/
def EndsDigits (rest : List Char) : Prop := ∀ c, rest.head? = some c → isDigit c = false

theorem mantissaDigits_append {rest : List Char} (hrest : EndsDigits rest) : ∀ {ds : List Char}
    (m : Mantissa), (∀ c ∈ ds, isDigit c = true) → mantissaDigits (ds ++ rest) m =
      (ds.foldlM (fun m c => processMantissaDigit c m) m).map fun m => (m, ds.length, rest) := by
  intro ds
  induction ds with
  | nil =>
    intro m _
    cases rest with
    | nil => rfl
    | cons c rest =>
      rw [List.nil_append, mantissaDigits, hrest c rfl]
      rfl
  | cons c ds ih =>
    intro m hds
    rw [List.cons_append, mantissaDigits, if_pos (hds c List.mem_cons_self), List.foldlM_cons]
    cases processMantissaDigit c m with
    | none => rfl
    | some m₁ =>
      simp only [Option.bind_eq_bind, Option.bind_some]
      rw [ih m₁ fun d hd => hds d (List.mem_cons_of_mem c hd)]
      cases ds.foldlM (fun m c => processMantissaDigit c m) m₁ with
      | none => rfl
      | some m₂ => rfl

def exponentDigit (exponent : ℤ) (c : Char) : Option ℤ :=
  if UPPER_BOUND / 10 < exponent then none else some (exponent * 10 + digit c)

theorem exponentDigits_append {rest : List Char} (hrest : EndsDigits rest) : ∀ {ds : List Char}
    (exponent : ℤ), (∀ c ∈ ds, isDigit c = true) → exponentDigits (ds ++ rest) exponent =
      (ds.foldlM exponentDigit exponent).map fun exponent => (exponent, rest) := by
  intro ds
  induction ds with
  | nil =>
    intro exponent _
    cases rest with
    | nil => rfl
    | cons c rest =>
      rw [List.nil_append, exponentDigits, hrest c rfl]
      rfl
  | cons c ds ih =>
    intro exponent hds
    rw [List.cons_append, exponentDigits, if_pos (hds c List.mem_cons_self), List.foldlM_cons,
      exponentDigit]
    split
    next => rfl
    next => exact ih _ fun d hd => hds d (List.mem_cons_of_mem c hd)

/-! ### What is computed of a number -/

namespace Number

variable (n : Number)

/-- The digits that are processed: a single zero in front of the point is passed. -/
def processed : List Char := (if n.whole = ['0'] then [] else n.whole) ++ n.fractional

def compute (decimals : ℤ) : Option ℤ := do
  let m ← n.processed.foldlM (fun m c => processMantissaDigit c m) ⟨0, 0⟩
  let exponent ← ((n.exponent.map Exponent.digits).getD []).foldlM exponentDigit 0
  let exponent := if (n.exponent.bind Exponent.sign) = some '-' then -exponent else exponent
  convert (if n.negative then -m.mantissa else m.mantissa)
    (exponent - n.fractional.length + m.tzeros + decimals)

variable {n}

theorem WellFormed.head_exponentText (h : n.WellFormed) {c : Char}
    (hc : n.exponentText.head? = some c) : isDigit c = false ∧ c ≠ '.' := by
  unfold exponentText at hc
  cases he : n.exponent with
  | none =>
    rw [he] at hc
    cases hc
  | some e =>
    rw [he] at hc
    obtain rfl := Option.some.inj hc
    rcases (h.exponent e he).mark with hmark | hmark
    · rw [hmark]
      decide
    · rw [hmark]
      decide

theorem WellFormed.endsWhole (h : n.WellFormed) :
    EndsDigits (Parts.point n.fractional ++ n.exponentText) := by
  intro c hc
  by_cases hnil : n.fractional = []
  · rw [Parts.point, if_pos hnil, List.nil_append] at hc
    exact (h.head_exponentText hc).1
  · rw [Parts.point, if_neg hnil] at hc
    obtain rfl := Option.some.inj hc
    decide

theorem WellFormed.integerPart_eq (h : n.WellFormed) :
    integerPart (n.whole ++ (Parts.point n.fractional ++ n.exponentText)) =
      ((if n.whole = ['0'] then [] else n.whole).foldlM
        (fun m c => processMantissaDigit c m) ⟨0, 0⟩).map
          fun m => (m, Parts.point n.fractional ++ n.exponentText) := by
  rcases h.whole with hzero | ⟨c, ds, hwhole, hlow, hhigh, hds⟩
  · rw [if_pos hzero, hzero]
    rfl
  · have hne : c ≠ '0' := by
      rintro rfl
      exact absurd hlow (by decide)
    have hnot : n.whole ≠ ['0'] := by
      rw [hwhole]
      intro heq
      exact hne (List.cons.inj heq).1
    have hall : ∀ d ∈ n.whole, isDigit d = true := by
      intro d hd
      rw [hwhole] at hd
      rcases List.mem_cons.mp hd with rfl | hd
      · have hlow' : '0' ≤ d := Char.le_trans (by decide) hlow
        simp [isDigit, hlow', hhigh]
      · exact hds d hd
    have hdigits := mantissaDigits_append h.endsWhole ⟨0, 0⟩ hall
    rw [if_neg hnot]
    rw [hwhole, List.cons_append] at hdigits ⊢
    rw [integerPart, if_neg hne, if_pos ⟨hlow, hhigh⟩, hdigits]
    cases (c :: ds).foldlM (fun m c => processMantissaDigit c m) (⟨0, 0⟩ : Mantissa) with
    | none => rfl
    | some m => rfl

theorem WellFormed.fraction_eq (h : n.WellFormed) (m : Mantissa) :
    fraction m (Parts.point n.fractional ++ n.exponentText) =
      (n.fractional.foldlM (fun m c => processMantissaDigit c m) m).map
        fun m => (m, n.fractional.length, n.exponentText) := by
  by_cases hnil : n.fractional = []
  · rw [Parts.point, if_pos hnil, List.nil_append, hnil]
    cases htext : n.exponentText with
    | nil => rfl
    | cons c rest =>
      have hdot : c ≠ '.' := (h.head_exponentText (by rw [htext]; rfl)).2
      rw [fraction, if_neg hdot]
      rfl
  · have hends : EndsDigits n.exponentText := fun c hc => (h.head_exponentText hc).1
    have hhead : (n.fractional ++ n.exponentText).head?.any isDigit = true := by
      obtain ⟨c, ds, hfr⟩ := List.exists_cons_of_ne_nil hnil
      rw [hfr]
      exact h.fractional c (by rw [hfr]; exact List.mem_cons_self)
    rw [Parts.point, if_neg hnil, List.cons_append, fraction, if_pos rfl, if_pos hhead,
      mantissaDigits_append hends m h.fractional]

theorem exponentSign_append {e : Exponent} (h : e.WellFormed) :
    exponentSign (e.sign.toList ++ e.digits) = (decide (e.sign = some '-'), e.digits) := by
  rcases h.sign with hsign | hsign | hsign
  · obtain ⟨c, ds, hdigits⟩ := List.exists_cons_of_ne_nil h.nonempty
    have hc : isDigit c = true := h.digits c (by rw [hdigits]; exact List.mem_cons_self)
    have hplus : c ≠ '+' := by
      rintro rfl
      exact absurd hc (by decide)
    have hminus : c ≠ '-' := by
      rintro rfl
      exact absurd hc (by decide)
    simp [hsign, hdigits, exponentSign, hplus, hminus]
  · simp [hsign, exponentSign]
  · simp [hsign, exponentSign]

theorem WellFormed.exponentPart_eq (h : n.WellFormed) : exponentPart n.exponentText =
    (((n.exponent.map Exponent.digits).getD []).foldlM exponentDigit 0).map fun exponent =>
      (if n.exponent.bind Exponent.sign = some '-' then -exponent else exponent, []) := by
  cases he : n.exponent with
  | none =>
    rw [exponentText, he]
    rfl
  | some e =>
    have hwf := h.exponent e he
    have hhead : e.digits.head?.any isDigit = true := by
      obtain ⟨c, ds, hdigits⟩ := List.exists_cons_of_ne_nil hwf.nonempty
      rw [hdigits]
      exact hwf.digits c (by rw [hdigits]; exact List.mem_cons_self)
    have hends : EndsDigits [] := fun c hc => by cases hc
    have hdigits := exponentDigits_append hends 0 hwf.digits
    rw [List.append_nil] at hdigits
    rw [exponentText, he]
    show exponentPart (e.mark :: (e.sign.toList ++ e.digits)) = _
    rw [exponentPart, if_pos hwf.mark]
    simp only [exponentSign_append hwf]
    rw [if_pos hhead, hdigits]
    simp only [Option.map_some, Option.getD_some, Option.bind_some, decide_eq_true_eq]
    cases e.digits.foldlM exponentDigit 0 with
    | none => rfl
    | some exponent => rfl

theorem WellFormed.mantissaSign_text (h : n.WellFormed) : mantissaSign n.text =
    (n.negative, n.whole ++ (Parts.point n.fractional ++ n.exponentText)) := by
  unfold text
  cases hneg : n.negative with
  | true => rfl
  | false =>
    have hminus : ∀ c ds, n.whole = c :: ds → c ≠ '-' := by
      rintro c ds hwhole rfl
      rcases h.whole with hzero | ⟨c', ds', hwhole', hlow, -, -⟩
      · rw [hzero] at hwhole
        cases hwhole
      · obtain ⟨rfl, -⟩ := List.cons.inj (hwhole'.symm.trans hwhole)
        exact absurd hlow (by decide)
    rcases hwhole : n.whole with - | ⟨c, ds⟩
    · rcases h.whole with hzero | ⟨c', ds', hwhole', -⟩
      · cases hwhole.symm.trans hzero
      · cases hwhole.symm.trans hwhole'
    · simp [mantissaSign, hminus c ds hwhole]

theorem WellFormed.parse_text (h : n.WellFormed) (decimals : ℤ) :
    parseFixedPoint n.text decimals = n.compute decimals := by
  unfold parseFixedPoint compute processed
  rw [h.mantissaSign_text]
  dsimp only
  rw [h.integerPart_eq, List.foldlM_append]
  cases (if n.whole = ['0'] then [] else n.whole).foldlM (fun m c => processMantissaDigit c m)
      (⟨0, 0⟩ : Mantissa) with
  | none => rfl
  | some m =>
    simp only [Option.map_some, Option.bind_eq_bind, Option.bind_some]
    rw [h.fraction_eq]
    cases n.fractional.foldlM (fun m c => processMantissaDigit c m) m with
    | none => rfl
    | some m₁ =>
      simp only [Option.map_some, Option.bind_some]
      rw [h.exponentPart_eq]
      cases ((n.exponent.map Exponent.digits).getD []).foldlM exponentDigit 0 with
      | none => rfl
      | some exponent => simp

end Number

/-! ### What is accepted -/

theorem whole_of_integerPart {val rest : List Char} {m : Mantissa}
    (h : integerPart val = some (m, rest)) : ∃ whole, val = whole ++ rest ∧
      (whole = ['0'] ∨ ∃ c ds, whole = c :: ds ∧ '1' ≤ c ∧ c ≤ '9' ∧
        ∀ d ∈ ds, isDigit d = true) := by
  rcases val with - | ⟨ch, val⟩
  · cases h
  rw [integerPart] at h
  by_cases hzero : ch = '0'
  · rw [if_pos hzero] at h
    cases h
    exact ⟨['0'], by rw [hzero]; rfl, Or.inl rfl⟩
  · rw [if_neg hzero] at h
    by_cases hch : '1' ≤ ch ∧ ch ≤ '9'
    · rw [if_pos hch] at h
      obtain ⟨⟨m', k, rest'⟩, hdigits, h⟩ := Option.bind_eq_some_iff.mp h
      cases h
      obtain ⟨ds, hval, -, hds, hhead, -⟩ := mantissaDigits_spec hdigits
      rcases ds with - | ⟨c, ds⟩
      · -- the first character is a digit, so it is not what follows the digits
        have hlow : '0' ≤ ch := Char.le_trans (by decide) hch.1
        rw [List.nil_append] at hval
        rw [← hval] at hhead
        simp [isDigit, hlow, hch.2] at hhead
      · obtain ⟨rfl, -⟩ := List.cons.inj hval
        exact ⟨ch :: ds, hval, Or.inr ⟨ch, ds, rfl, hch.1, hch.2,
          fun d hd => hds d (List.mem_cons_of_mem ch hd)⟩⟩
    · rw [if_neg hch] at h
      cases h

theorem digits_of_exponentDigits : ∀ {val rest : List Char} {x y : ℤ},
    exponentDigits val x = some (y, rest) →
      ∃ ds, val = ds ++ rest ∧ ∀ c ∈ ds, isDigit c = true := by
  intro val
  induction val with
  | nil =>
    intro rest x y h
    cases h
    exact ⟨[], rfl, by simp⟩
  | cons c val ih =>
    intro rest x y h
    rw [exponentDigits] at h
    by_cases hc : isDigit c = true
    · rw [if_pos hc] at h
      split at h
      next => cases h
      next =>
        obtain ⟨ds, rfl, hds⟩ := ih h
        refine ⟨c :: ds, rfl, fun d hd => ?_⟩
        rcases List.mem_cons.mp hd with rfl | hd
        · exact hc
        · exact hds d hd
    · rw [if_neg hc] at h
      cases h
      exact ⟨[], rfl, by simp⟩

theorem exponentSign_cases (val : List Char) : ∃ sign : Option Char,
    val = sign.toList ++ (exponentSign val).2 ∧
      (sign = none ∨ sign = some '+' ∨ sign = some '-') := by
  rcases val with - | ⟨ch, val⟩
  · exact ⟨none, rfl, Or.inl rfl⟩
  · by_cases hplus : ch = '+'
    · exact ⟨some '+', by simp [exponentSign, hplus], Or.inr (Or.inl rfl)⟩
    · by_cases hminus : ch = '-'
      · exact ⟨some '-', by simp [exponentSign, hminus], Or.inr (Or.inr rfl)⟩
      · exact ⟨none, by simp [exponentSign, hplus, hminus], Or.inl rfl⟩

theorem exponent_of_exponentPart {val : List Char} {exponent : ℤ}
    (h : exponentPart val = some (exponent, [])) :
    val = [] ∨ ∃ e : Exponent, e.WellFormed ∧ val = e.text := by
  rcases val with - | ⟨ch, val⟩
  · exact Or.inl rfl
  rw [exponentPart] at h
  by_cases hch : ch = 'e' ∨ ch = 'E'
  · rw [if_pos hch] at h
    dsimp only at h
    by_cases hhead : (exponentSign val).2.head?.any isDigit = true
    · rw [if_pos hhead] at h
      obtain ⟨⟨x, rest⟩, hdigits, h⟩ := Option.bind_eq_some_iff.mp h
      obtain ⟨-, rfl⟩ := Prod.mk.inj (Option.some.inj h)
      obtain ⟨ds, hval, hds⟩ := digits_of_exponentDigits hdigits
      obtain ⟨sign, hsplit, hsign⟩ := exponentSign_cases val
      rw [List.append_nil] at hval
      have hne : ds ≠ [] := by
        rintro rfl
        rw [hval] at hhead
        cases hhead
      refine Or.inr ⟨⟨ch, sign, ds⟩, ⟨hch, hsign, hne, hds⟩, ?_⟩
      rw [Exponent.text, ← hval, ← hsplit]
    · rw [if_neg hhead] at h
      cases h
  · rw [if_neg hch] at h
    cases h

theorem exists_text {val : List Char} {decimals v : ℤ} (h : parseFixedPoint val decimals = some v) :
    ∃ n : Number, n.WellFormed ∧ val = n.text := by
  rw [parseFixedPoint] at h
  obtain ⟨⟨m, val₁⟩, hwhole, h⟩ := Option.bind_eq_some_iff.mp h
  obtain ⟨⟨m₂, k, val₂⟩, hfraction, h⟩ := Option.bind_eq_some_iff.mp h
  obtain ⟨⟨exponent, val₃⟩, hexponent, h⟩ := Option.bind_eq_some_iff.mp h
  dsimp only at hfraction hexponent h
  by_cases hrest : val₃ ≠ []
  · rw [if_pos hrest] at h
    cases h
  obtain rfl := not_not.mp hrest
  obtain ⟨whole, hval, hwf⟩ := whole_of_integerPart hwhole
  obtain ⟨fractional, hval₁, -, hfdigits, -⟩ := fraction_spec hfraction
  have hsign := mantissaSign_spec val
  rw [hval, hval₁] at hsign
  rcases exponent_of_exponentPart hexponent with rfl | ⟨e, he, rfl⟩
  · exact ⟨⟨(mantissaSign val).1, whole, fractional, none⟩, ⟨hwf, hfdigits, fun e he => by cases he⟩,
      hsign⟩
  · refine ⟨⟨(mantissaSign val).1, whole, fractional, some e⟩, ⟨hwf, hfdigits, fun e' he' => ?_⟩,
      hsign⟩
    obtain rfl := Option.some.inj he'
    exact he

/-! ### The mantissa -/

/-- However many zeros are taken off, 10^18 is reached. -/
def Large (n : ℕ) : Prop := ∀ k v : ℕ, n = v * 10 ^ k → 10 ^ 18 ≤ v

theorem large_of_not_dvd {n : ℕ} (h : 10 ^ 18 ≤ n) (hdvd : ¬ 10 ∣ n) : Large n := by
  intro k v hn
  cases k with
  | zero => rwa [hn, pow_zero, mul_one] at h
  | succ k =>
    refine absurd ?_ hdvd
    rw [hn, pow_succ, ← mul_assoc]
    exact Nat.dvd_mul_left 10 _

theorem Large.snoc {n d : ℕ} (h : Large n) (hd : d < 10) : Large (n * 10 + d) := by
  intro k v hn
  cases k with
  | zero =>
    have hlarge := h 0 n (by simp)
    rw [pow_zero, mul_one] at hn
    omega
  | succ k =>
    rw [pow_succ, ← mul_assoc] at hn
    refine h k v ?_
    omega

theorem digit_lt {c : Char} (h : isDigit c = true) : digit c < 10 := by
  have hc : '0' ≤ c ∧ c ≤ '9' := by simpa [isDigit] using h
  have hhigh : c.toNat ≤ '9'.toNat := hc.2
  have h9 : '9'.toNat = 57 := rfl
  have h0 : '0'.toNat = 48 := rfl
  unfold digit
  omega

theorem digit_pos {c : Char} (h : isDigit c = true) (hne : c ≠ '0') : 0 < digit c := by
  have hc : '0' ≤ c ∧ c ≤ '9' := by simpa [isDigit] using h
  have hlow : '0'.toNat ≤ c.toNat := hc.1
  have hnat : c.toNat ≠ '0'.toNat := by
    intro heq
    apply hne
    rw [← Char.ofNat_toNat c, heq]
    rfl
  unfold digit
  omega

theorem Large.append {n : ℕ} (h : Large n) : ∀ {ds : List Char}, (∀ c ∈ ds, isDigit c = true) →
    Large (n * 10 ^ ds.length + digitsValue ds) := by
  intro ds
  induction ds generalizing n with
  | nil => simpa [digitsValue] using h
  | cons c ds ih =>
    intro hds
    have hnext := ih (h.snoc (digit_lt (hds c List.mem_cons_self)))
      fun d hd => hds d (List.mem_cons_of_mem c hd)
    have heq : n * 10 ^ (c :: ds).length + digitsValue (c :: ds) =
        (n * 10 + digit c) * 10 ^ ds.length + digitsValue ds := by
      rw [digitsValue_cons, List.length_cons]
      ring
    rwa [heq]

/-- The mantissa fits, and has no zeros at its end. -/
structure Normal (m : Mantissa) : Prop where
  nonneg : 0 ≤ m.mantissa
  bound : m.mantissa ≤ UPPER_BOUND
  zeros : m.mantissa = 0 ∨ ¬ (10 : ℤ) ∣ m.mantissa

theorem timesTen_eq_none {overflow : ℤ → Bool} : ∀ {n : ℕ} {m : ℤ},
    timesTen overflow n m = none ↔ ∃ j < n, overflow (m * 10 ^ j) = true := by
  intro n
  induction n with
  | zero =>
    intro m
    simp [timesTen]
  | succ n ih =>
    intro m
    rw [timesTen]
    by_cases hover : overflow m = true
    · rw [if_pos hover]
      refine ⟨fun _ => ⟨0, Nat.succ_pos n, by simpa using hover⟩, fun _ => rfl⟩
    · rw [if_neg hover, ih]
      constructor
      · rintro ⟨j, hj, hover'⟩
        exact ⟨j + 1, by omega, by rwa [pow_succ', ← mul_assoc]⟩
      · rintro ⟨j, hj, hover'⟩
        cases j with
        | zero => exact absurd (by simpa using hover') hover
        | succ j => exact ⟨j, by omega, by rwa [pow_succ', ← mul_assoc] at hover'⟩

theorem mul_pow_le {m : ℤ} (hm : 0 ≤ m) {j k : ℕ} (h : j ≤ k) : m * 10 ^ j ≤ m * 10 ^ k :=
  mul_le_mul_of_nonneg_left (pow_le_pow_right₀ (by decide) h) hm

theorem Normal.process {m : Mantissa} (h : Normal m) {c : Char} (hc : isDigit c = true) :
    (∃ m', processMantissaDigit c m = some m' ∧ Normal m' ∧ m'.tzeros ≤ m.tzeros + 1) ∨
      processMantissaDigit c m = none ∧
        ∀ w : ℕ, m.value = w → Large (w * 10 + digit c) := by
  rw [processMantissaDigit]
  by_cases hzero : c = '0'
  · rw [if_pos hzero]
    exact Or.inl ⟨_, rfl, ⟨h.nonneg, h.bound, h.zeros⟩, le_refl _⟩
  · rw [if_neg hzero]
    have hlt := digit_lt hc
    have hpos := digit_pos hc hzero
    have hub : UPPER_BOUND / 10 = 99999999999999999 := by decide
    have hpow : m.mantissa * 10 ^ (m.tzeros + 1) = m.mantissa * 10 ^ m.tzeros * 10 := by ring
    cases htimes : timesTen (fun mantissa => UPPER_BOUND / 10 < mantissa) (m.tzeros + 1)
        m.mantissa with
    | none =>
      refine Or.inr ⟨rfl, fun w hw => ?_⟩
      obtain ⟨j, hj, hover⟩ := timesTen_eq_none.mp htimes
      have hover : UPPER_BOUND / 10 < m.mantissa * 10 ^ j := of_decide_eq_true hover
      have hle := mul_pow_le h.nonneg (Nat.le_of_lt_succ hj)
      have hvalue : m.mantissa * 10 ^ m.tzeros = w := hw
      refine large_of_not_dvd ?_ ?_
      · omega
      · omega
    | some mantissa =>
      have hall : ∀ j < m.tzeros + 1, ¬ UPPER_BOUND / 10 < m.mantissa * 10 ^ j := by
        intro j hj hover
        have hnone : timesTen (fun mantissa => UPPER_BOUND / 10 < mantissa) (m.tzeros + 1)
            m.mantissa = none := timesTen_eq_none.mpr ⟨j, hj, decide_eq_true hover⟩
        rw [hnone] at htimes
        cases htimes
      have hlast := hall m.tzeros (Nat.lt_succ_self _)
      have heq := timesTen_eq htimes
      have hnonneg : 0 ≤ m.mantissa * 10 ^ m.tzeros :=
        mul_nonneg h.nonneg (pow_nonneg (by decide) _)
      have hval : UPPER_BOUND = 999999999999999999 := by decide
      refine Or.inl ⟨_, rfl, ⟨?_, ?_, Or.inr ?_⟩, Nat.zero_le _⟩
      · show 0 ≤ mantissa + digit c
        omega
      · show mantissa + digit c ≤ UPPER_BOUND
        omega
      · show ¬ (10 : ℤ) ∣ mantissa + digit c
        omega

theorem Normal.fold : ∀ {ds : List Char} {m : Mantissa}, Normal m →
    (∀ c ∈ ds, isDigit c = true) →
    (∃ m', ds.foldlM (fun m c => processMantissaDigit c m) m = some m' ∧ Normal m' ∧
      m'.tzeros ≤ m.tzeros + ds.length ∧
      m'.value = m.value * 10 ^ ds.length + digitsValue ds) ∨
      ds.foldlM (fun m c => processMantissaDigit c m) m = none ∧
        ∀ w : ℕ, m.value = w → Large (w * 10 ^ ds.length + digitsValue ds) := by
  intro ds
  induction ds with
  | nil =>
    intro m h _
    exact Or.inl ⟨m, rfl, h, le_refl _, by simp [digitsValue]⟩
  | cons c ds ih =>
    intro m h hds
    have hds' := fun d hd => hds d (List.mem_cons_of_mem c hd)
    have hsplit : ∀ w : ℕ, (w * 10 + digit c) * 10 ^ ds.length + digitsValue ds =
        w * 10 ^ (c :: ds).length + digitsValue (c :: ds) := by
      intro w
      rw [digitsValue_cons, List.length_cons]
      ring
    rcases h.process (hds c List.mem_cons_self) with ⟨m₁, hm₁, h₁, htz⟩ | ⟨hnone, hlarge⟩
    · have hvalue := processMantissaDigit_value hm₁
      rcases ih h₁ hds' with ⟨m', hm', h', htz', hvalue'⟩ | ⟨hnone, hlarge⟩
      · refine Or.inl ⟨m', ?_, h', ?_, ?_⟩
        · rw [List.foldlM_cons, hm₁]
          exact hm'
        · rw [List.length_cons]
          omega
        · rw [hvalue', hvalue, digitsValue_cons, List.length_cons]
          push_cast
          ring
      · refine Or.inr ⟨?_, fun w hw => ?_⟩
        · rw [List.foldlM_cons, hm₁]
          exact hnone
        · rw [← hsplit]
          refine hlarge (w * 10 + digit c) ?_
          rw [hvalue, hw]
          push_cast
          ring
    · refine Or.inr ⟨?_, fun w hw => ?_⟩
      · rw [List.foldlM_cons, hnone]
        rfl
      · rw [← hsplit]
        exact (hlarge w hw).append hds'

theorem exponent_fold : ∀ {ds : List Char} {x : ℤ}, 0 ≤ x → x ≤ UPPER_BOUND →
    (∀ c ∈ ds, isDigit c = true) →
    (∃ y, ds.foldlM exponentDigit x = some y ∧ y ≤ UPPER_BOUND ∧
      y = x * 10 ^ ds.length + digitsValue ds) ∨
      ds.foldlM exponentDigit x = none ∧ 10 ^ 18 ≤ x * 10 ^ ds.length + digitsValue ds := by
  intro ds
  induction ds with
  | nil =>
    intro x _ hx _
    exact Or.inl ⟨x, rfl, hx, by simp [digitsValue]⟩
  | cons c ds ih =>
    intro x hx0 hx hds
    have hlt := digit_lt (hds c List.mem_cons_self)
    have hub : UPPER_BOUND / 10 = 99999999999999999 := by decide
    have hval : UPPER_BOUND = 999999999999999999 := by decide
    have hsplit : (x * 10 + digit c) * 10 ^ ds.length + digitsValue ds =
        x * 10 ^ (c :: ds).length + digitsValue (c :: ds) := by
      rw [digitsValue_cons, List.length_cons]
      push_cast
      ring
    rw [List.foldlM_cons, exponentDigit, ← hsplit]
    split
    next hover =>
      refine Or.inr ⟨rfl, ?_⟩
      have hone : (1 : ℤ) ≤ 10 ^ ds.length := one_le_pow₀ (by decide)
      have hle : (x * 10 + digit c) * 1 ≤ (x * 10 + digit c) * 10 ^ ds.length :=
        mul_le_mul_of_nonneg_left hone (by omega)
      omega
    next hover => exact ih (by omega) (by omega) fun d hd => hds d (List.mem_cons_of_mem c hd)

/-! ### What fits -/

theorem units_eq {m e v : ℤ} (hdvd : ¬ (10 : ℤ) ∣ m) :
    (m : ℚ) * 10 ^ e = v ↔ 0 ≤ e ∧ v = m * 10 ^ e.toNat := by
  have hten : (10 : ℚ) ≠ 0 := by norm_num
  constructor
  · intro h
    by_cases he : 0 ≤ e
    · refine ⟨he, ?_⟩
      rw [← Int.toNat_of_nonneg he, zpow_natCast] at h
      exact_mod_cast h.symm
    · -- the digits that are cut off would be zeros
      obtain ⟨k, hk⟩ : ∃ k : ℕ, e = -((k + 1 : ℕ) : ℤ) := ⟨(-e - 1).toNat, by omega⟩
      have hmul : m = v * 10 ^ (k + 1) := by
        rw [hk, zpow_neg, zpow_natCast, mul_inv_eq_iff_eq_mul₀ (pow_ne_zero _ hten)] at h
        exact_mod_cast h
      exact absurd ⟨v * 10 ^ k, by rw [hmul]; ring⟩ hdvd
  · rintro ⟨he, rfl⟩
    obtain ⟨k, rfl⟩ := Int.eq_ofNat_of_zero_le he
    rw [zpow_natCast]
    push_cast
    rfl

theorem convert_eq_some {m e v : ℤ} (hm : m ≠ 0) :
    convert m e = some v ↔ 0 ≤ e ∧ v = m * 10 ^ e.toNat ∧ |v| ≤ UPPER_BOUND := by
  have hval : UPPER_BOUND = 999999999999999999 := by decide
  have hdiv : UPPER_BOUND / 10 = 99999999999999999 := by decide
  constructor
  · intro h
    obtain ⟨he, hv⟩ := convert_spec h
    refine ⟨he, hv, ?_⟩
    rw [convert, if_neg (by omega)] at h
    split at h
    next => cases h
    next =>
      obtain ⟨m', -, h⟩ := Option.bind_eq_some_iff.mp h
      split at h
      next => cases h
      next hover =>
        obtain rfl := Option.some.inj h
        rw [abs_le]
        omega
  · rintro ⟨he, hv, hle⟩
    obtain ⟨k, rfl⟩ := Int.eq_ofNat_of_zero_le he
    rw [Int.toNat_natCast] at hv
    have hpow : ∀ j : ℕ, (0 : ℤ) ≤ 10 ^ j := pow_nonneg (by decide)
    have habs : |v| = |m| * 10 ^ k := by rw [hv, abs_mul, abs_of_nonneg (hpow k)]
    have hone : 1 ≤ |m| := Int.one_le_abs hm
    have hk : k < 18 := by
      by_contra hk
      have hlarge : (10 : ℤ) ^ 18 ≤ 10 ^ k := pow_le_pow_right₀ (by decide) (by omega)
      have hmul : 1 * (10 : ℤ) ^ k ≤ |m| * 10 ^ k := mul_le_mul_of_nonneg_right hone (hpow k)
      omega
    have htimes : timesTen
        (fun mantissa => UPPER_BOUND / 10 < mantissa || mantissa < -(UPPER_BOUND / 10)) k m =
          some v := by
      cases hcase : timesTen
          (fun mantissa => UPPER_BOUND / 10 < mantissa || mantissa < -(UPPER_BOUND / 10)) k m with
      | some v' => rw [hv, timesTen_eq hcase]
      | none =>
        obtain ⟨j, hj, hover⟩ := timesTen_eq_none.mp hcase
        have hnext : |m| * 10 ^ (j + 1) ≤ |v| := by
          rw [habs]
          exact mul_pow_le (abs_nonneg m) hj
        have hj' : |m * 10 ^ j| * 10 = |m| * 10 ^ (j + 1) := by
          rw [abs_mul, abs_of_nonneg (hpow j)]
          ring
        have hsmall : |m * 10 ^ j| ≤ 99999999999999999 := by omega
        rw [abs_le] at hsmall
        simp only [Bool.or_eq_true, decide_eq_true_eq] at hover
        omega
    rw [convert, if_neg (by omega), if_neg (by omega), Int.toNat_natCast, htimes]
    rw [abs_le] at hle
    exact if_neg (by omega)

theorem Normal.convert_iff {m : Mantissa} (h : Normal m) (hne : m.mantissa ≠ 0) (negative : Bool)
    {e v : ℤ} : convert (if negative then -m.mantissa else m.mantissa) e = some v ↔
      (m.mantissa : ℚ) * 10 ^ e = ((if negative then -v else v : ℤ) : ℚ) ∧ |v| ≤ UPPER_BOUND := by
  have hdvd : ¬ (10 : ℤ) ∣ m.mantissa := h.zeros.resolve_left hne
  rw [units_eq hdvd]
  cases negative with
  | true =>
    rw [if_pos rfl, if_pos rfl, convert_eq_some (neg_ne_zero.mpr hne), neg_mul,
      ← neg_eq_iff_eq_neg, and_assoc]
  | false =>
    rw [if_neg (by decide), if_neg (by decide), convert_eq_some hne, and_assoc]

theorem convert_lt {m e v : ℤ} (h : convert m e = some v) : e < 18 := by
  rw [convert] at h
  by_contra hle
  rw [if_neg (by omega), if_pos (by omega)] at h
  cases h

theorem Large.not_fits {n : ℕ} (h : Large n) {e v : ℤ} (hv : (n : ℚ) * 10 ^ e = v) :
    10 ^ 18 ≤ |v| := by
  have hten : (10 : ℚ) ≠ 0 := by norm_num
  by_cases he : 0 ≤ e
  · obtain ⟨k, rfl⟩ := Int.eq_ofNat_of_zero_le he
    have hn := h 0 n (by simp)
    have heq : v = ((n * 10 ^ k : ℕ) : ℤ) := by
      rw [zpow_natCast] at hv
      exact_mod_cast hv.symm
    have hle : n * 1 ≤ n * 10 ^ k := Nat.mul_le_mul_left n (Nat.one_le_pow k 10 (by decide))
    rw [heq, abs_of_nonneg (by omega)]
    omega
  · obtain ⟨k, hk⟩ : ∃ k : ℕ, e = -(k : ℤ) := ⟨(-e).toNat, by omega⟩
    have hmul : (n : ℤ) = v * 10 ^ k := by
      rw [hk, zpow_neg, zpow_natCast, mul_inv_eq_iff_eq_mul₀ (pow_ne_zero _ hten)] at hv
      exact_mod_cast hv
    have habs : n = v.natAbs * 10 ^ k := by
      have hnat := congrArg Int.natAbs hmul
      rwa [Int.natAbs_natCast, Int.natAbs_mul, Int.natAbs_pow] at hnat
    have hlarge := h k v.natAbs habs
    rw [Int.abs_eq_natAbs]
    omega

namespace Number

variable {n : Number}

theorem value_mul (n : Number) (decimals : ℤ) : n.value * 10 ^ decimals =
    (if n.negative then -1 else 1) * (n.digits : ℚ) *
      10 ^ (n.exponentValue - n.fractional.length + decimals) := by
  rw [value, mul_assoc, ← zpow_add₀ (by norm_num)]

theorem digitsValue_processed (n : Number) : digitsValue n.processed = n.digits := by
  unfold processed digits
  by_cases hzero : n.whole = ['0']
  · rw [if_pos hzero, hzero, List.nil_append, digitsValue_append]
    simp [digitsValue, digit]
  · rw [if_neg hzero]

theorem WellFormed.processed_digits (h : n.WellFormed) : ∀ c ∈ n.processed, isDigit c = true := by
  intro c hc
  rcases List.mem_append.mp hc with hc | hc
  · rcases h.whole with hzero | ⟨c', ds, hwhole, hlow, hhigh, hds⟩
    · rw [if_pos hzero] at hc
      cases hc
    · split at hc
      next => cases hc
      next =>
        rw [hwhole] at hc
        rcases List.mem_cons.mp hc with rfl | hc
        · have hlow' : '0' ≤ c := Char.le_trans (by decide) hlow
          simp [isDigit, hlow', hhigh]
        · exact hds c hc
  · exact h.fractional c hc

theorem processed_length (n : Number) :
    n.processed.length + n.exponentText.length ≤ n.text.length := by
  unfold processed text Parts.point
  by_cases hzero : n.whole = ['0']
  · rw [if_pos hzero]
    split_ifs <;> simp_all <;> omega
  · rw [if_neg hzero]
    split_ifs <;> simp_all <;> omega

theorem fractional_length (n : Number) : n.fractional.length ≤ n.processed.length := by
  rw [processed, List.length_append]
  omega

def exponentNat (n : Number) : ℕ := digitsValue ((n.exponent.map Exponent.digits).getD [])

theorem exponentValue_eq (n : Number) : n.exponentValue =
    if n.exponent.bind Exponent.sign = some '-' then -(n.exponentNat : ℤ) else n.exponentNat := by
  unfold exponentValue exponentNat
  cases n.exponent with
  | none => rfl
  | some e => rfl

theorem WellFormed.exponent_digits (h : n.WellFormed) :
    ∀ c ∈ (n.exponent.map Exponent.digits).getD [], isDigit c = true := by
  intro c hc
  cases he : n.exponent with
  | none =>
    rw [he] at hc
    cases hc
  | some e =>
    rw [he] at hc
    exact (h.exponent e he).digits c hc

theorem WellFormed.compute_eq_some (h : n.WellFormed) (hlen : n.text.length < 2 ^ 31)
    (hne : n.digits ≠ 0) {decimals : ℤ} (h0 : 0 ≤ decimals) (h18 : decimals ≤ 18) {v : ℤ} :
    n.compute decimals = some v ↔ n.value * 10 ^ decimals = v ∧ |v| ≤ 10 ^ 18 - 1 := by
  have hval : UPPER_BOUND = 10 ^ 18 - 1 := by decide
  have hplen := n.processed_length
  have hflen := n.fractional_length
  have hnormal : Normal ⟨0, 0⟩ := ⟨le_refl _, by decide, Or.inl rfl⟩
  rw [value_mul, exponentValue_eq]
  set negative := n.exponent.bind Exponent.sign = some '-' with hnegative
  -- the sign goes to the value
  have hsign : ∀ e : ℤ, (if n.negative = true then -1 else 1) * (n.digits : ℚ) * 10 ^ e = v ↔
      (n.digits : ℚ) * 10 ^ e = ((if n.negative = true then -v else v : ℤ) : ℚ) := by
    intro e
    cases n.negative with
    | true =>
      rw [if_pos rfl, if_pos rfl, Int.cast_neg, ← neg_eq_iff_eq_neg, neg_mul, neg_mul, one_mul]
    | false => rw [if_neg (by decide), if_neg (by decide), one_mul]
  have habs : |(if n.negative = true then -v else v : ℤ)| = |v| := by
    split
    next => exact abs_neg v
    next => rfl
  rw [hsign]
  unfold compute
  rcases hnormal.fold h.processed_digits with ⟨m, hm, hm', htz, hvalue⟩ | ⟨hnone, hlarge⟩
  · have htotal : (n.digits : ℤ) = m.mantissa * 10 ^ m.tzeros := by
      rw [← Mantissa.value, hvalue, digitsValue_processed, Mantissa.value, zero_mul, zero_mul,
        zero_add]
    have hne' : m.mantissa ≠ 0 := by
      intro hzero
      rw [hzero, zero_mul] at htotal
      exact hne (by exact_mod_cast htotal)
    have hshift : ∀ e : ℤ, (n.digits : ℚ) * 10 ^ e = m.mantissa * 10 ^ (e + m.tzeros) := by
      intro e
      have hcast : (n.digits : ℚ) = m.mantissa * 10 ^ m.tzeros := by exact_mod_cast htotal
      rw [hcast, zpow_add₀ (by norm_num), zpow_natCast]
      ring
    have hiff := fun e : ℤ => hm'.convert_iff hne' n.negative (e := e) (v := v)
    rw [hm, hshift, ← hval, ← hiff]
    simp only [Option.bind_eq_bind, Option.bind_some]
    rcases exponent_fold (le_refl 0) (by decide) h.exponent_digits with
      ⟨y, hy, -, hyvalue⟩ | ⟨hnone, hbig⟩
    · have hexp : y = n.exponentNat := by rw [hyvalue, zero_mul, zero_add, exponentNat]
      rw [hy, Option.bind_some, hexp]
      have harrange : ∀ x : ℤ, x - n.fractional.length + m.tzeros + decimals =
          x - n.fractional.length + decimals + m.tzeros := by
        intro x
        omega
      rw [harrange]
    · -- the shifts are too short to make up for such an exponent
      have hzeros : m.tzeros ≤ n.processed.length := by simpa using htz
      have hexp : (10 : ℤ) ^ 18 ≤ n.exponentNat := by
        rw [zero_mul, zero_add] at hbig
        exact hbig
      rw [hnone, Option.bind_none]
      constructor
      · intro h
        cases h
      · intro h
        have hlt := convert_lt h
        rw [convert_eq_some (by split <;> omega)] at h
        have hnonneg := h.1
        split at hlt
        next hneg =>
          rw [if_pos hneg] at hnonneg
          omega
        next hneg => omega
  · rw [hnone]
    have hdigits := hlarge 0 rfl
    rw [Nat.zero_mul, Nat.zero_add, digitsValue_processed] at hdigits
    constructor
    · intro h
      cases h
    · rintro ⟨heq, hle⟩
      have hbig := hdigits.not_fits heq
      rw [habs] at hbig
      omega

/-- The mark of the exponent, and nothing in front of it. -/
def isMark (c : Char) : Bool := c = 'e' ∨ c = 'E'

/-- A digit that is no zero. -/
def isNonzero (c : Char) : Bool := '1' ≤ c ∧ c ≤ '9'

theorem digitsValue_ne_zero : ∀ {ds : List Char} {c : Char}, c ∈ ds → isNonzero c = true →
    digitsValue ds ≠ 0 := by
  intro ds
  induction ds with
  | nil =>
    intro c hc _
    cases hc
  | cons d ds ih =>
    intro c hc hnz
    rw [digitsValue_cons]
    rcases List.mem_cons.mp hc with rfl | hc
    · have hc' : '1' ≤ c ∧ c ≤ '9' := by simpa [isNonzero] using hnz
      have hdigit : isDigit c = true := by
        have hlow : '0' ≤ c := Char.le_trans (by decide) hc'.1
        simp [isDigit, hlow, hc'.2]
      have hne : c ≠ '0' := by
        rintro rfl
        exact absurd hc'.1 (by decide)
      have hpos := Nat.mul_pos (digit_pos hdigit hne) (Nat.pow_pos (n := ds.length) (by decide : 0 < 10))
      omega
    · have hrest := ih hc hnz
      omega

theorem mem_of_takeWhile {p : Char → Bool} {r : List Char} (hr : ∀ c, r.head? = some c → p c = false)
    {c : Char} : ∀ {l : List Char}, c ∈ (l ++ r).takeWhile p → c ∈ l := by
  intro l
  induction l with
  | nil =>
    intro hc
    rcases r with - | ⟨d, r⟩
    · cases hc
    · rw [List.nil_append, List.takeWhile_cons, hr d rfl] at hc
      cases hc
  | cons d l ih =>
    intro hc
    rw [List.cons_append, List.takeWhile_cons] at hc
    split at hc
    next =>
      rcases List.mem_cons.mp hc with rfl | hc
      · exact List.mem_cons_self
      · exact List.mem_cons_of_mem d (ih hc)
    next => cases hc

theorem WellFormed.digits_ne_zero (h : n.WellFormed) {c : Char}
    (hc : c ∈ n.text.takeWhile fun c => !isMark c) (hnz : isNonzero c = true) : n.digits ≠ 0 := by
  have hends : ∀ d, n.exponentText.head? = some d → (!isMark d) = false := by
    intro d hd
    cases he : n.exponent with
    | none =>
      rw [exponentText, he] at hd
      cases hd
    | some e =>
      rw [exponentText, he] at hd
      obtain rfl := Option.some.inj hd
      have hmark : isMark e.mark = true := decide_eq_true (h.exponent e he).mark
      show (!isMark e.mark) = false
      rw [hmark]
      rfl
  have hmem : c ∈ (if n.negative then ['-'] else []) ++ (n.whole ++ Parts.point n.fractional) := by
    refine mem_of_takeWhile hends ?_
    rwa [text, ← List.append_assoc n.whole, ← List.append_assoc] at hc
  have hminus : c ≠ '-' := by
    rintro rfl
    exact absurd hnz (by decide)
  have hdot : c ≠ '.' := by
    rintro rfl
    exact absurd hnz (by decide)
  have hdigits : c ∈ n.whole ++ n.fractional := by
    rw [List.mem_append]
    rcases List.mem_append.mp hmem with hsign | hmem
    · split at hsign
      next => exact absurd (List.mem_singleton.mp hsign) hminus
      next => cases hsign
    · rcases List.mem_append.mp hmem with hwhole | hpoint
      · exact Or.inl hwhole
      · rw [Parts.point] at hpoint
        split at hpoint
        next => cases hpoint
        next => exact Or.inr ((List.mem_cons.mp hpoint).resolve_left hdot)
  exact digitsValue_ne_zero hdigits hnz

end Number

theorem parse_eq_some_iff {val : List Char} (hlen : val.length < 2 ^ 31)
    (hnz : ∃ c ∈ val.takeWhile fun c => !Number.isMark c, Number.isNonzero c = true)
    {decimals : ℤ} (h0 : 0 ≤ decimals) (h18 : decimals ≤ 18) {v : ℤ} :
    parseFixedPoint val decimals = some v ↔ ∃ n : Number, n.WellFormed ∧ val = n.text ∧
      n.value * 10 ^ decimals = v ∧ |v| ≤ 10 ^ 18 - 1 := by
  obtain ⟨c, hc, hnz⟩ := hnz
  constructor
  · intro h
    obtain ⟨n, hn, rfl⟩ := exists_text h
    rw [hn.parse_text, hn.compute_eq_some hlen (hn.digits_ne_zero hc hnz) h0 h18] at h
    exact ⟨n, hn, rfl, h⟩
  · rintro ⟨n, hn, rfl, h⟩
    rw [hn.parse_text, hn.compute_eq_some hlen (hn.digits_ne_zero hc hnz) h0 h18]
    exact h

end Stonecoin.FixedPoint
