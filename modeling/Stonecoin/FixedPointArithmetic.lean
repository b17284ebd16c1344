/-
`ParseFixedPoint` with its machine integers.  Sums, products and negations of `int64_t` are
tested for overflow; the end of the string is an `int`, so that of a string of 2^31 characters
or more at most a part is read.

  * `parseFixedPoint_exact`: the function accepts exactly the numbers that fit.
-/
import Stonecoin.FixedPointExact

namespace Stonecoin.FixedPoint.Checked

/-- Why there is no amount: the function returns false, or an `int64_t` overflows. -/
inductive Stop
  | refused
  | overflow
deriving DecidableEq, Repr

/-- The result of an operation on `int64_t`. -/
def int64 (x : ℤ) : Except Stop ℤ := if -2 ^ 63 ≤ x ∧ x < 2 ^ 63 then .ok x else .error .overflow

/-- A number times ten, so many times, with a test in front of each. -/
def timesTen (overflow : ℤ → Bool) : ℕ → ℤ → Except Stop ℤ
  | 0, mantissa => .ok mantissa
  | n + 1, mantissa =>
    if overflow mantissa then .error .refused
    else do
      let mantissa ← int64 (mantissa * 10)
      timesTen overflow n mantissa

def processMantissaDigit (ch : Char) (m : Mantissa) : Except Stop Mantissa :=
  if ch = '0' then .ok { m with tzeros := m.tzeros + 1 }
  else do
    let mantissa ← timesTen (fun mantissa => UPPER_BOUND / 10 < mantissa) (m.tzeros + 1) m.mantissa
    let mantissa ← int64 (mantissa + digit ch)
    .ok ⟨mantissa, 0⟩

/-- The loop over the digits of the mantissa, with their number and what follows them. -/
def mantissaDigits : List Char → Mantissa → Except Stop (Mantissa × ℕ × List Char)
  | [], m => .ok (m, 0, [])
  | ch :: val, m =>
    if isDigit ch then do
      let m ← processMantissaDigit ch m
      let (m, n, val) ← mantissaDigits val m
      .ok (m, n + 1, val)
    else .ok (m, 0, ch :: val)

/-- The digits in front of the point. -/
def integerPart : List Char → Except Stop (Mantissa × List Char)
  | [] => .error .refused
  | ch :: val =>
    if ch = '0' then .ok (⟨0, 0⟩, val)
    else if '1' ≤ ch ∧ ch ≤ '9' then do
      let (m, _, val) ← mantissaDigits (ch :: val) ⟨0, 0⟩
      .ok (m, val)
    else .error .refused

/-- The point and the digits behind it. -/
def fraction (m : Mantissa) : List Char → Except Stop (Mantissa × ℕ × List Char)
  | [] => .ok (m, 0, [])
  | ch :: val =>
    if ch = '.' then if val.head?.any isDigit then mantissaDigits val m else .error .refused
    else .ok (m, 0, ch :: val)

/-- The loop over the digits of the exponent; the character is added, then `'0'` taken off. -/
def exponentDigits : List Char → ℤ → Except Stop (ℤ × List Char)
  | [], exponent => .ok (exponent, [])
  | ch :: val, exponent =>
    if isDigit ch then
      if UPPER_BOUND / 10 < exponent then .error .refused
      else do
        let exponent ← int64 (exponent * 10)
        let exponent ← int64 (exponent + ch.toNat)
        let exponent ← int64 (exponent - '0'.toNat)
        exponentDigits val exponent
    else .ok (exponent, ch :: val)

/-- The letter and what is behind it: the exponent, and whether it has a minus sign. -/
def exponentPart : List Char → Except Stop (ℤ × Bool × List Char)
  | [] => .ok (0, false, [])
  | ch :: val =>
    if ch = 'e' ∨ ch = 'E' then
      let exponent_sign := (exponentSign val).1
      let val := (exponentSign val).2
      if val.head?.any isDigit then do
        let (exponent, val) ← exponentDigits val 0
        .ok (exponent, exponent_sign, val)
      else .error .refused
    else .ok (0, false, ch :: val)

def applySign (sign : Bool) (x : ℤ) : Except Stop ℤ := if sign then int64 (-x) else .ok x

/-- The end of the function. -/
def convert (mantissa exponent : ℤ) : Except Stop ℤ :=
  if exponent < 0 then .error .refused
  else if 18 ≤ exponent then .error .refused
  else do
    let mantissa ← timesTen
      (fun mantissa => UPPER_BOUND / 10 < mantissa || mantissa < -(UPPER_BOUND / 10))
      exponent.toNat mantissa
    if UPPER_BOUND < mantissa ∨ mantissa < -UPPER_BOUND then .error .refused else .ok mantissa

/-- What is read of a string: `end` is its size as an `int`. -/
def upToEnd (val : List Char) : List Char := val.take (Int32.ofNat val.length).toInt.toNat

def parseFixedPoint (val : List Char) (decimals : Int32) : Except Stop ℤ := do
  let val := upToEnd val
  let mantissa_sign := (mantissaSign val).1
  let (m, val) ← integerPart (mantissaSign val).2
  let (m, point_ofs, val) ← fraction m val
  let (exponent, exponent_sign, val) ← exponentPart val
  if val ≠ [] then .error .refused
  else do
    let exponent ← applySign exponent_sign exponent
    let exponent ← int64 (exponent - point_ofs)
    let exponent ← int64 (exponent + m.tzeros)
    let mantissa ← applySign mantissa_sign m.mantissa
    let exponent ← int64 (exponent + decimals.toInt)
    convert mantissa exponent

/-! ### No overflow -/

/-- What is refused without a reason. -/
def ofOption {α : Type*} : Option α → Except Stop α
  | none => .error .refused
  | some a => .ok a

theorem int64_eq {x : ℤ} (h : |x| < 2 ^ 63) : int64 x = .ok x := by
  rw [abs_lt] at h
  exact if_pos ⟨by omega, by omega⟩

theorem timesTen_eq {overflow : ℤ → Bool} : ∀ {n : ℕ} {m : ℤ},
    (∀ j : ℕ, overflow (m * 10 ^ j) = false → |m * 10 ^ j| ≤ UPPER_BOUND / 10) →
      timesTen overflow n m = ofOption (FixedPoint.timesTen overflow n m) := by
  intro n
  induction n with
  | zero =>
    intro m _
    rfl
  | succ n ih =>
    intro m h
    rw [timesTen, FixedPoint.timesTen]
    by_cases hover : overflow m = true
    · rw [if_pos hover, if_pos hover]
      rfl
    · rw [if_neg hover, if_neg hover]
      have hzero := h 0 (by simpa using hover)
      have hub : UPPER_BOUND / 10 = 99999999999999999 := by decide
      have hin : |m * 10| < 2 ^ 63 := by
        rw [pow_zero, mul_one, abs_le] at hzero
        rw [abs_lt]
        omega
      rw [int64_eq hin]
      exact ih fun j hj => by
        have heq : m * 10 * 10 ^ j = m * 10 ^ (j + 1) := by ring
        rw [heq] at hj ⊢
        exact h (j + 1) hj

theorem processMantissaDigit_eq {m : Mantissa} (h : Normal m) {c : Char} (hc : isDigit c = true) :
    processMantissaDigit c m = ofOption (FixedPoint.processMantissaDigit c m) := by
  rw [processMantissaDigit, FixedPoint.processMantissaDigit]
  by_cases hzero : c = '0'
  · rw [if_pos hzero, if_pos hzero]
    rfl
  · rw [if_neg hzero, if_neg hzero]
    have hub : UPPER_BOUND / 10 = 99999999999999999 := by decide
    have hval : UPPER_BOUND = 999999999999999999 := by decide
    rw [timesTen_eq fun j hj => ?_]
    · cases htimes : FixedPoint.timesTen (fun mantissa => UPPER_BOUND / 10 < mantissa)
          (m.tzeros + 1) m.mantissa with
      | none => rfl
      | some mantissa =>
        have hprocess := h.process hc
        rw [FixedPoint.processMantissaDigit, if_neg hzero, htimes] at hprocess
        rcases hprocess with ⟨m', hm', hnormal, -⟩ | ⟨hnone, -⟩
        · obtain rfl := Option.some.inj hm'
          have hnonneg := hnormal.nonneg
          have hbound := hnormal.bound
          have hin : |mantissa + (digit c : ℤ)| < 2 ^ 63 := by
            rw [abs_lt]
            dsimp only at hnonneg hbound
            omega
          show (int64 (mantissa + digit c) >>= fun mantissa => _) = _
          rw [int64_eq hin]
          rfl
        · cases hnone
    · have hle : m.mantissa * 10 ^ j ≤ UPPER_BOUND / 10 := by simpa using hj
      rwa [abs_of_nonneg (mul_nonneg h.nonneg (pow_nonneg (by decide) j))]

/-- What the loop over digits keeps of a mantissa, and how far it goes. -/
structure Reads (m : Mantissa) (val : List Char) (r : Mantissa × ℕ × List Char) : Prop where
  normal : Normal r.1
  zeros : r.1.tzeros ≤ m.tzeros + val.length
  count : r.2.1 ≤ val.length
  rest : r.2.2.length ≤ val.length

theorem mantissaDigits_eq : ∀ (val : List Char) {m : Mantissa}, Normal m →
    mantissaDigits val m = ofOption (FixedPoint.mantissaDigits val m) ∧
      ∀ r, FixedPoint.mantissaDigits val m = some r → Reads m val r := by
  intro val
  induction val with
  | nil =>
    intro m h
    refine ⟨rfl, fun r hr => ?_⟩
    obtain rfl := Option.some.inj hr
    exact ⟨h, le_refl _, le_refl _, le_refl _⟩
  | cons c val ih =>
    intro m h
    rw [mantissaDigits, FixedPoint.mantissaDigits]
    by_cases hc : isDigit c = true
    · rw [if_pos hc, if_pos hc, processMantissaDigit_eq h hc]
      rcases h.process hc with ⟨m₁, hm₁, h₁, htz⟩ | ⟨hnone, -⟩
      · rw [hm₁]
        obtain ⟨heq, hreads⟩ := ih h₁
        show (mantissaDigits val m₁ >>= fun r => Except.ok (r.1, r.2.1 + 1, r.2.2)) =
            ofOption ((FixedPoint.mantissaDigits val m₁).bind fun r =>
              some (r.1, r.2.1 + 1, r.2.2)) ∧
          ∀ r, ((FixedPoint.mantissaDigits val m₁).bind fun r =>
            some (r.1, r.2.1 + 1, r.2.2)) = some r → Reads m (c :: val) r
        rw [heq]
        cases hdigits : FixedPoint.mantissaDigits val m₁ with
        | none => exact ⟨rfl, fun r hr => by cases hr⟩
        | some r₁ =>
          refine ⟨rfl, fun r hr => ?_⟩
          obtain rfl := Option.some.inj hr
          obtain ⟨hnormal, hzeros, hcount, hrest⟩ := hreads r₁ hdigits
          refine ⟨hnormal, ?_, ?_, ?_⟩
          · show r₁.1.tzeros ≤ m.tzeros + (c :: val).length
            rw [List.length_cons]
            omega
          · exact Nat.succ_le_succ hcount
          · exact hrest.trans (Nat.le_succ _)
      · rw [hnone]
        exact ⟨rfl, fun r hr => by cases hr⟩
    · rw [if_neg hc, if_neg hc]
      refine ⟨rfl, fun r hr => ?_⟩
      obtain rfl := Option.some.inj hr
      exact ⟨h, Nat.le_add_right _ _, Nat.zero_le _, le_refl _⟩

theorem normal_zero : Normal ⟨0, 0⟩ := ⟨le_refl _, by decide, Or.inl rfl⟩

theorem integerPart_eq (val : List Char) :
    integerPart val = ofOption (FixedPoint.integerPart val) ∧
      ∀ m rest, FixedPoint.integerPart val = some (m, rest) →
        Normal m ∧ m.tzeros ≤ val.length ∧ rest.length ≤ val.length := by
  rcases val with - | ⟨c, val⟩
  · exact ⟨rfl, fun m rest h => by cases h⟩
  rw [integerPart, FixedPoint.integerPart]
  by_cases hzero : c = '0'
  · rw [if_pos hzero, if_pos hzero]
    refine ⟨rfl, fun m rest h => ?_⟩
    cases h
    exact ⟨normal_zero, Nat.zero_le _, Nat.le_succ _⟩
  rw [if_neg hzero, if_neg hzero]
  by_cases hc : '1' ≤ c ∧ c ≤ '9'
  · rw [if_pos hc, if_pos hc]
    obtain ⟨heq, hreads⟩ := mantissaDigits_eq (c :: val) normal_zero
    rw [heq]
    cases hdigits : FixedPoint.mantissaDigits (c :: val) ⟨0, 0⟩ with
    | none => exact ⟨rfl, fun m rest h => by cases h⟩
    | some r =>
      refine ⟨rfl, fun m rest h => ?_⟩
      cases h
      obtain ⟨hnormal, hzeros, -, hrest⟩ := hreads r hdigits
      exact ⟨hnormal, by simpa using hzeros, hrest⟩
  · rw [if_neg hc, if_neg hc]
    exact ⟨rfl, fun m rest h => by cases h⟩

theorem fraction_eq {m : Mantissa} (h : Normal m) (val : List Char) :
    fraction m val = ofOption (FixedPoint.fraction m val) ∧
      ∀ r, FixedPoint.fraction m val = some r → Reads m val r := by
  rcases val with - | ⟨c, val⟩
  · refine ⟨rfl, fun r hr => ?_⟩
    obtain rfl := Option.some.inj hr
    exact ⟨h, Nat.le_refl _, Nat.le_refl _, Nat.le_refl _⟩
  rw [fraction, FixedPoint.fraction]
  by_cases hdot : c = '.'
  · rw [if_pos hdot, if_pos hdot]
    by_cases hhead : val.head?.any isDigit = true
    · rw [if_pos hhead, if_pos hhead]
      obtain ⟨heq, hreads⟩ := mantissaDigits_eq val h
      refine ⟨heq, fun r hr => ?_⟩
      obtain ⟨hnormal, hzeros, hcount, hrest⟩ := hreads r hr
      exact ⟨hnormal, hzeros.trans (Nat.le_succ _), hcount.trans (Nat.le_succ _),
        hrest.trans (Nat.le_succ _)⟩
    · rw [if_neg hhead, if_neg hhead]
      exact ⟨rfl, fun r hr => by cases hr⟩
  · rw [if_neg hdot, if_neg hdot]
    refine ⟨rfl, fun r hr => ?_⟩
    obtain rfl := Option.some.inj hr
    exact ⟨h, Nat.le_add_right _ _, Nat.zero_le _, Nat.le_refl _⟩

theorem exponentDigits_eq : ∀ (val : List Char) {x : ℤ}, 0 ≤ x → x ≤ UPPER_BOUND →
    exponentDigits val x = ofOption (FixedPoint.exponentDigits val x) ∧
      ∀ y rest, FixedPoint.exponentDigits val x = some (y, rest) → 0 ≤ y ∧ y ≤ UPPER_BOUND := by
  intro val
  induction val with
  | nil =>
    intro x h0 hle
    refine ⟨rfl, fun y rest h => ?_⟩
    cases h
    exact ⟨h0, hle⟩
  | cons c val ih =>
    intro x h0 hle
    rw [exponentDigits, FixedPoint.exponentDigits]
    by_cases hc : isDigit c = true
    · rw [if_pos hc, if_pos hc]
      by_cases hover : UPPER_BOUND / 10 < x
      · rw [if_pos hover, if_pos hover]
        exact ⟨rfl, fun y rest h => by cases h⟩
      · rw [if_neg hover, if_neg hover]
        have hub : UPPER_BOUND / 10 = 99999999999999999 := by decide
        have hval : UPPER_BOUND = 999999999999999999 := by decide
        have hchar : '0' ≤ c ∧ c ≤ '9' := by simpa [isDigit] using hc
        have hlow : '0'.toNat ≤ c.toNat := hchar.1
        have hhigh : c.toNat ≤ '9'.toNat := hchar.2
        have h9 : '9'.toNat = 57 := rfl
        have h48 : '0'.toNat = 48 := rfl
        have hdigit : (digit c : ℤ) = c.toNat - '0'.toNat := by
          rw [digit]
          omega
        rw [int64_eq (by rw [abs_lt]; omega)]
        show (int64 (x * 10 + c.toNat) >>= fun exponent =>
            int64 (exponent - '0'.toNat) >>= fun exponent => exponentDigits val exponent) = _ ∧ _
        rw [int64_eq (by rw [abs_lt]; omega)]
        show (int64 (x * 10 + c.toNat - '0'.toNat) >>= fun exponent =>
            exponentDigits val exponent) = _ ∧ _
        rw [int64_eq (by rw [abs_lt]; omega)]
        show exponentDigits val (x * 10 + c.toNat - '0'.toNat) = _ ∧ _
        have heq : x * 10 + (c.toNat : ℤ) - '0'.toNat = x * 10 + digit c := by omega
        rw [heq]
        exact ih (by omega) (by omega)
    · rw [if_neg hc, if_neg hc]
      refine ⟨rfl, fun y rest h => ?_⟩
      cases h
      exact ⟨h0, hle⟩

theorem exponentPart_eq (val : List Char) :
    exponentPart val = .error .refused ∧ FixedPoint.exponentPart val = none ∨
      ∃ x sign rest, exponentPart val = .ok (x, sign, rest) ∧
        FixedPoint.exponentPart val = some (if sign then -x else x, rest) ∧
          0 ≤ x ∧ x ≤ UPPER_BOUND := by
  rcases val with - | ⟨c, val⟩
  · exact Or.inr ⟨0, false, [], rfl, rfl, by decide⟩
  rw [exponentPart, FixedPoint.exponentPart]
  by_cases hmark : c = 'e' ∨ c = 'E'
  · rw [if_pos hmark, if_pos hmark]
    dsimp only
    by_cases hhead : (exponentSign val).2.head?.any isDigit = true
    · rw [if_pos hhead, if_pos hhead]
      obtain ⟨heq, hbound⟩ := exponentDigits_eq (exponentSign val).2 (le_refl 0) (by decide)
      rw [heq]
      rcases hdigits : FixedPoint.exponentDigits (exponentSign val).2 0 with - | ⟨x, rest⟩
      · exact Or.inl ⟨rfl, rfl⟩
      · exact Or.inr ⟨x, (exponentSign val).1, rest, rfl, rfl, hbound x rest hdigits⟩
    · rw [if_neg hhead, if_neg hhead]
      exact Or.inl ⟨rfl, rfl⟩
  · rw [if_neg hmark, if_neg hmark]
    exact Or.inr ⟨0, false, c :: val, rfl, rfl, by decide⟩

theorem applySign_eq {x : ℤ} (h0 : 0 ≤ x) (hle : x ≤ UPPER_BOUND) (sign : Bool) :
    applySign sign x = .ok (if sign then -x else x) := by
  have hval : UPPER_BOUND = 999999999999999999 := by decide
  rw [applySign]
  split
  next => exact int64_eq (by rw [abs_lt]; omega)
  next => rfl

theorem convert_eq (m e : ℤ) :
    convert m e = ofOption (FixedPoint.convert m e) := by
  rw [convert, FixedPoint.convert]
  by_cases hneg : e < 0
  · rw [if_pos hneg, if_pos hneg]
    rfl
  rw [if_neg hneg, if_neg hneg]
  by_cases hlarge : 18 ≤ e
  · rw [if_pos hlarge, if_pos hlarge]
    rfl
  rw [if_neg hlarge, if_neg hlarge, timesTen_eq fun j hj => ?_]
  · cases FixedPoint.timesTen
        (fun mantissa => UPPER_BOUND / 10 < mantissa || mantissa < -(UPPER_BOUND / 10))
        e.toNat m with
    | none => rfl
    | some mantissa =>
      show (if UPPER_BOUND < mantissa ∨ mantissa < -UPPER_BOUND then _ else _) =
        ofOption (if UPPER_BOUND < mantissa ∨ mantissa < -UPPER_BOUND then _ else _)
      split
      next => rfl
      next => rfl
  · rw [abs_le]
    simp only [Bool.or_eq_false_iff, decide_eq_false_iff_not] at hj
    omega

theorem upToEnd_length (val : List Char) : (upToEnd val).length < 2 ^ 31 := by
  have hlt := Int32.toInt_lt (Int32.ofNat val.length)
  rw [upToEnd, List.length_take]
  omega

theorem upToEnd_eq {val : List Char} (h : val.length < 2 ^ 31) : upToEnd val = val := by
  rw [upToEnd, Int32.toInt_ofNat_of_lt h, Int.toNat_natCast, List.take_length]

theorem mantissaSign_length (val : List Char) : (mantissaSign val).2.length ≤ val.length := by
  rcases val with - | ⟨c, val⟩
  · exact le_refl _
  · rw [mantissaSign]
    split
    next => exact Nat.le_succ _
    next => exact le_refl _

theorem parseFixedPoint_eq (val : List Char) (decimals : Int32) : parseFixedPoint val decimals =
    ofOption (FixedPoint.parseFixedPoint (upToEnd val) decimals.toInt) := by
  have hval : UPPER_BOUND = 999999999999999999 := by decide
  have hlen := upToEnd_length val
  have hsign := mantissaSign_length (upToEnd val)
  rw [parseFixedPoint, FixedPoint.parseFixedPoint]
  dsimp only
  generalize (mantissaSign (upToEnd val)).2 = val₀ at hsign
  generalize (mantissaSign (upToEnd val)).1 = negative
  obtain ⟨hwhole, hwholeBound⟩ := integerPart_eq val₀
  rw [hwhole]
  rcases hm : FixedPoint.integerPart val₀ with - | ⟨m, val₁⟩
  · rfl
  obtain ⟨hnormal, hzeros, hrest⟩ := hwholeBound m val₁ hm
  obtain ⟨hfraction, hfractionBound⟩ := fraction_eq hnormal val₁
  show (fraction m val₁ >>= _) = ofOption ((FixedPoint.fraction m val₁).bind _)
  rw [hfraction]
  rcases hm₁ : FixedPoint.fraction m val₁ with - | ⟨m₁, point_ofs, val₂⟩
  · rfl
  obtain ⟨hnormal₁, hzeros₁, hcount, -⟩ := hfractionBound _ hm₁
  show (exponentPart val₂ >>= _) = ofOption ((FixedPoint.exponentPart val₂).bind _)
  rcases exponentPart_eq val₂ with ⟨hrefused, hnone⟩ | ⟨x, sign, val₃, hexponent, hsome, h0, hle⟩
  · rw [hrefused, hnone]
    rfl
  rw [hexponent, hsome]
  dsimp only at hzeros₁ hcount hnormal₁
  have hlow := Int32.le_toInt decimals
  have hhigh := Int32.toInt_lt decimals
  show (if val₃ ≠ [] then Except.error Stop.refused else _) =
    ofOption (if val₃ ≠ [] then none else _)
  by_cases hend : val₃ ≠ []
  · rw [if_pos hend, if_pos hend]
    rfl
  rw [if_neg hend, if_neg hend, applySign_eq h0 hle]
  have hexponent : |if sign = true then -x else x| ≤ UPPER_BOUND := by
    rw [abs_le]
    split
    next => omega
    next => omega
  dsimp only
  generalize (if sign = true then -x else x) = exponent at hexponent ⊢
  rw [abs_le] at hexponent
  show (int64 (exponent - point_ofs) >>= _) = _
  rw [int64_eq (by rw [abs_lt]; omega)]
  show (int64 (exponent - point_ofs + m₁.tzeros) >>= _) = _
  rw [int64_eq (by rw [abs_lt]; omega)]
  show (applySign negative m₁.mantissa >>= _) = _
  rw [applySign_eq hnormal₁.nonneg hnormal₁.bound]
  show (int64 (exponent - point_ofs + m₁.tzeros + decimals.toInt) >>= _) = _
  rw [int64_eq (by rw [abs_lt]; omega)]
  exact convert_eq _ _

/-- **`ParseFixedPoint` is exact.**  No `int64_t` overflows on any string.  A string with a digit
other than zero in its mantissa is accepted if it is a number in JSON syntax whose value is an
integer number of units below 10^18, and that integer is returned. -/
theorem parseFixedPoint_exact :
    (∀ (val : List Char) (decimals : Int32), parseFixedPoint val decimals ≠ .error .overflow) ∧
      ∀ val : List Char, val.length < 2 ^ 31 →
        (∃ c ∈ val.takeWhile fun c => !Number.isMark c, Number.isNonzero c = true) →
          ∀ decimals : Int32, 0 ≤ decimals.toInt → decimals.toInt ≤ 18 → ∀ v : ℤ,
            parseFixedPoint val decimals = .ok v ↔ ∃ n : Number, n.WellFormed ∧ val = n.text ∧
              n.value * 10 ^ decimals.toInt = v ∧ |v| ≤ 10 ^ 18 - 1 := by
  constructor
  · intro val decimals
    rw [parseFixedPoint_eq]
    cases FixedPoint.parseFixedPoint (upToEnd val) decimals.toInt with
    | none => exact Ne.symm (by decide)
    | some v => rintro ⟨⟩
  · intro val hlen hnz decimals h0 h18 v
    rw [← parse_eq_some_iff hlen hnz h0 h18, parseFixedPoint_eq, upToEnd_eq hlen]
    cases FixedPoint.parseFixedPoint val decimals.toInt with
    | none => constructor <;> rintro ⟨⟩
    | some v' => exact ⟨fun h => by cases h; rfl, fun h => by cases h; rfl⟩

/-- Zeros that an exponent takes back do not count. -/
theorem parseFixedPoint_exact_zeros :
    ∃ n : Number, n.WellFormed ∧ "-1500000000000000000000e-21".toList = n.text ∧
      n.value * 10 ^ (8 : Int32).toInt = ((-150000000 : ℤ) : ℚ) ∧
        |(-150000000 : ℤ)| ≤ 10 ^ 18 - 1 :=
  (parseFixedPoint_exact.2 "-1500000000000000000000e-21".toList (by decide)
    ⟨'1', by decide +kernel, by decide⟩ 8 (by decide) (by decide) (-150000000)).mp
      (by decide +kernel)

end Stonecoin.FixedPoint.Checked
