/-
The strict encoding of signatures (`IsValidSignatureEncoding` of `script/interpreter.cpp`).

A signature is accepted exactly when it is

    0x30 [total-length] 0x02 [R-length] [R] 0x02 [S-length] [S] [sighash]

with two integers in the shortest form.  Lengths that the sender has chosen are used as offsets;
the tests are read here a second time, with a check of every offset.
-/
import Stonecoin.Interpreter
import Mathlib.Data.List.GetD

namespace Stonecoin

namespace Interpreter

/-! ### The tests, with the bytes they read -/

/-- `lenR > 1 && (sig[4] == 0x00) && !(sig[5] & 0x80)`, and the same for S: the first byte is a
zero that is not needed. -/
def isPadded (sig : Valtype) (len first : ℕ) : Option Bool :=
  if len ≤ 1 then some false
  else do
    let b ← sig[first]?
    if b ≠ 0x00 then some false
    else do
      let b ← sig[first + 1]?
      some (b &&& 0x80 = 0)

def isValidSignatureEncodingRead (sig : Valtype) : Option Bool :=
  if sig.length < 9 then some false
  else if 73 < sig.length then some false
  else do
    let b ← sig[0]?
    if b ≠ 0x30 then some false
    else do
    let b ← sig[1]?
    if b.toNat ≠ sig.length - 3 then some false
    else do
    let lenR ← sig[3]?
    let lenR := lenR.toNat
    if sig.length ≤ 5 + lenR then some false
    else do
    let lenS ← sig[5 + lenR]?
    let lenS := lenS.toNat
    if lenR + lenS + 7 ≠ sig.length then some false
    else do
    let b ← sig[2]?
    if b ≠ 0x02 then some false
    else if lenR = 0 then some false
    else do
    let b ← sig[4]?
    if b &&& 0x80 ≠ 0 then some false
    else do
    let padded ← isPadded sig lenR 4
    if padded then some false
    else do
    let b ← sig[lenR + 4]?
    if b ≠ 0x02 then some false
    else if lenS = 0 then some false
    else do
    let b ← sig[lenR + 6]?
    if b &&& 0x80 ≠ 0 then some false
    else do
    let padded ← isPadded sig lenS (lenR + 6)
    if padded then some false
    else some true

variable {sig : Valtype}

theorem read_bind {i : ℕ} (h : i < sig.length) (f : UInt8 → Option Bool) :
    (sig[i]? >>= f) = f (sig.getD i 0) := by
  rw [List.getD_eq_getElem?_getD, List.getElem?_eq_getElem h]
  rfl

theorem isPadded_eq {len first : ℕ} (h : first + len ≤ sig.length) :
    isPadded sig len first = some (decide
      (1 < len ∧ sig.getD first 0 = 0x00 ∧ sig.getD (first + 1) 0 &&& 0x80 = 0)) := by
  unfold isPadded
  by_cases hlen : len ≤ 1
  · rw [if_pos hlen]
    simp [Nat.not_lt.mpr hlen]
  · rw [if_neg hlen, read_bind (by omega)]
    by_cases hzero : sig.getD first 0 = 0
    · rw [if_neg (not_not.mpr hzero), read_bind (by omega)]
      simp only [hzero, Nat.lt_of_not_le hlen, true_and]
    · rw [if_pos hzero]
      simp only [hzero, false_and, and_false, decide_false]

theorem reject {c : Prop} [Decidable c] {x : Option Bool} {b : Bool} (h : ¬ c → x = some b) :
    (if c then some false else x) = some (if c then false else b) := by
  by_cases hc : c
  · rw [if_pos hc, if_pos hc]
  · rw [if_neg hc, if_neg hc, h hc]

theorem isValidSignatureEncodingRead_eq (sig : Valtype) :
    isValidSignatureEncodingRead sig = some (isValidSignatureEncoding sig) := by
  unfold isValidSignatureEncodingRead isValidSignatureEncoding
  refine reject fun hmin => reject fun hmax => ?_
  rw [read_bind (by omega)]
  refine reject fun _ => ?_
  rw [read_bind (by omega)]
  refine reject fun _ => ?_
  rw [read_bind (by omega)]
  refine reject fun hR => ?_
  rw [read_bind (by omega)]
  refine reject fun hlen => ?_
  rw [read_bind (by omega)]
  refine reject fun _ => reject fun hRpos => ?_
  rw [read_bind (by omega)]
  refine reject fun _ => ?_
  rw [isPadded_eq (by omega), Option.bind_eq_bind, Option.bind_some]
  simp only [decide_eq_true_eq]
  refine reject fun _ => ?_
  rw [read_bind (by omega)]
  refine reject fun _ => reject fun hSpos => ?_
  rw [read_bind (by omega)]
  refine reject fun _ => ?_
  rw [isPadded_eq (by omega), Option.bind_some]
  simp only [decide_eq_true_eq]
  exact reject fun _ => rfl

/-! ### Integers in the shortest form -/

/-- The number of a big-endian string. -/
def readBE : List UInt8 → ℕ
  | [] => 0
  | b :: bs => b.toNat * 256 ^ bs.length + readBE bs

theorem readBE_lt : ∀ bs : List UInt8, readBE bs < 256 ^ bs.length := by
  intro bs
  induction bs with
  | nil => exact Nat.one_pos
  | cons b bs ih =>
    have hb : b.toNat + 1 ≤ 256 := b.toNat_lt
    have hmul := Nat.mul_le_mul_right (256 ^ bs.length) hb
    rw [readBE, List.length_cons, Nat.pow_succ]
    rw [Nat.add_mul, Nat.one_mul] at hmul
    omega

theorem readBE_inj : ∀ {as bs : List UInt8}, as.length = bs.length → readBE as = readBE bs →
    as = bs := by
  intro as
  induction as with
  | nil => exact fun hlen _ => (List.length_eq_zero_iff.mp hlen.symm).symm
  | cons a as ih =>
    intro bs hlen heq
    cases bs with
    | nil => exact absurd hlen (by simp)
    | cons b bs =>
      have hlen' : as.length = bs.length := Nat.succ.inj hlen
      have ha := readBE_lt as
      have hb := readBE_lt bs
      rw [readBE, readBE, hlen'] at heq
      rw [hlen'] at ha
      have hpos : 0 < 256 ^ bs.length := Nat.pos_of_neZero _
      -- the first byte is the quotient, the rest the remainder
      have hhead : a.toNat = b.toNat := by
        have hdiv := congrArg (· / 256 ^ bs.length) heq
        simp only [Nat.mul_comm _ (256 ^ bs.length), Nat.mul_add_div hpos, Nat.div_eq_of_lt ha,
          Nat.div_eq_of_lt hb, Nat.add_zero] at hdiv
        exact hdiv
      have htail : readBE as = readBE bs := by
        rw [hhead] at heq
        exact Nat.add_left_cancel heq
      rw [UInt8.toNat_inj.mp hhead, ih hlen' htail]

/-- A number that is not negative, in the shortest form: the first byte does not have its highest
bit set, and is zero only where the next one has. -/
structure DerInteger (bs : List UInt8) : Prop where
  nonempty : bs ≠ []
  nonneg : bs.getD 0 0 &&& 0x80 = 0
  minimal : 1 < bs.length → bs.getD 0 0 = 0x00 → bs.getD 1 0 &&& 0x80 ≠ 0

theorem highBit_iff (b : UInt8) : b &&& 0x80 = 0 ↔ b.toNat < 128 := by
  have hall : ∀ n < 256, UInt8.ofNat n &&& 0x80 = 0 ↔ n < 128 := by decide +kernel
  have hb := hall b.toNat b.toNat_lt
  rwa [UInt8.ofNat_toNat] at hb

theorem DerInteger.lower {bs : List UInt8} (h : DerInteger bs) (hlen : 1 < bs.length) :
    128 * 256 ^ (bs.length - 2) ≤ readBE bs := by
  obtain - | ⟨a, - | ⟨b, bs⟩⟩ := bs
  · exact absurd hlen (by decide)
  · exact absurd hlen (Nat.lt_irrefl 1)
  · show 128 * 256 ^ bs.length ≤ a.toNat * 256 ^ (bs.length + 1) + (b.toNat * 256 ^ bs.length + _)
    by_cases ha : a = 0
    · have hb : ¬ b &&& 0x80 = 0 := h.minimal hlen ha
      have hmul : 128 * 256 ^ bs.length ≤ b.toNat * 256 ^ bs.length :=
        Nat.mul_le_mul_right _ (Nat.le_of_not_lt fun hlt => hb ((highBit_iff b).mpr hlt))
      omega
    · have hpos : 1 ≤ a.toNat := Nat.pos_of_ne_zero fun hz => ha (UInt8.toNat_inj.mp hz)
      have hmul : 1 * 256 ^ (bs.length + 1) ≤ a.toNat * 256 ^ (bs.length + 1) :=
        Nat.mul_le_mul_right _ hpos
      rw [Nat.pow_succ] at hmul ⊢
      omega

theorem DerInteger.upper {bs : List UInt8} (h : DerInteger bs) :
    readBE bs < 128 * 256 ^ (bs.length - 1) := by
  obtain - | ⟨a, bs⟩ := bs
  · exact absurd rfl h.nonempty
  · show a.toNat * 256 ^ bs.length + readBE bs < 128 * 256 ^ bs.length
    have ha : a.toNat + 1 ≤ 128 := (highBit_iff a).mp h.nonneg
    have hmul := Nat.mul_le_mul_right (256 ^ bs.length) ha
    have hlt := readBE_lt bs
    rw [Nat.add_mul, Nat.one_mul] at hmul
    omega

theorem DerInteger.lt_of_length {as bs : List UInt8} (ha : DerInteger as) (hb : DerInteger bs)
    (hlen : as.length < bs.length) : readBE as < readBE bs := by
  have hpos : 0 < as.length := List.length_pos_iff.mpr ha.nonempty
  calc readBE as < 128 * 256 ^ (as.length - 1) := ha.upper
    _ ≤ 128 * 256 ^ (bs.length - 2) :=
      Nat.mul_le_mul_left 128 (Nat.pow_le_pow_right (by decide) (by omega))
    _ ≤ readBE bs := hb.lower (by omega)

theorem DerInteger.ext {as bs : List UInt8} (ha : DerInteger as) (hb : DerInteger bs)
    (h : readBE as = readBE bs) : as = bs := by
  rcases Nat.lt_trichotomy as.length bs.length with hlt | heq | hgt
  · exact absurd h (ha.lt_of_length hb hlt).ne
  · exact readBE_inj heq h
  · exact absurd h (hb.lt_of_length ha hgt).ne'

/-! ### Signatures -/

/-- The bytes of a signature, with any lengths, types and integers. -/
def sigBytes (b₀ b₁ b₂ lenR : UInt8) (R : List UInt8) (b : UInt8) (lenS : UInt8) (S : List UInt8)
    (hashType : UInt8) : Valtype :=
  b₀ :: b₁ :: b₂ :: lenR :: (R ++ b :: lenS :: (S ++ [hashType]))

section sigBytes

variable {b₀ b₁ b₂ b lenR lenS hashType : UInt8} {R S : List UInt8}

theorem length_sigBytes :
    (sigBytes b₀ b₁ b₂ lenR R b lenS S hashType).length = R.length + S.length + 7 := by
  simp only [sigBytes, List.length_cons, List.length_append, List.length_nil]
  omega

theorem getD_sigBytes_R {i : ℕ} (h : i < R.length) :
    (sigBytes b₀ b₁ b₂ lenR R b lenS S hashType).getD (i + 4) 0 = R.getD i 0 := by
  show (R ++ _).getD i 0 = _
  exact List.getD_append _ _ _ _ h

theorem getD_sigBytes_tail (i : ℕ) :
    (sigBytes b₀ b₁ b₂ lenR R b lenS S hashType).getD (R.length + i + 4) 0 =
      (b :: lenS :: (S ++ [hashType])).getD i 0 := by
  show (R ++ _).getD (R.length + i) 0 = _
  rw [List.getD_append_right _ _ _ _ (Nat.le_add_right _ _), Nat.add_sub_cancel_left]

theorem getD_sigBytes_S {i : ℕ} (h : i < S.length) :
    (sigBytes b₀ b₁ b₂ lenR R b lenS S hashType).getD (R.length + (i + 2) + 4) 0 = S.getD i 0 := by
  rw [getD_sigBytes_tail]
  show (S ++ _).getD i 0 = _
  exact List.getD_append _ _ _ _ h

end sigBytes

structure DerSignature (R S : List UInt8) (hashType : UInt8) (sig : Valtype) : Prop where
  bytes : ∃ total lenR lenS, sig = sigBytes 0x30 total 0x02 lenR R 0x02 lenS S hashType ∧
    total.toNat = sig.length - 3 ∧ lenR.toNat = R.length ∧ lenS.toNat = S.length
  R : DerInteger R
  S : DerInteger S

theorem reject_iff {c : Prop} [Decidable c] {b : Bool} :
    (if c then false else b) = true ↔ ¬ c ∧ b = true := by
  by_cases hc : c
  · simp [hc]
  · simp [hc]

theorem derInteger_iff {bs : List UInt8} : DerInteger bs ↔ ¬ bs.length = 0 ∧
    ¬ bs.getD 0 0 &&& 0x80 ≠ 0 ∧
      ¬ (1 < bs.length ∧ bs.getD 0 0 = 0x00 ∧ bs.getD 1 0 &&& 0x80 = 0) := by
  constructor
  · intro h
    exact ⟨fun hlen => h.nonempty (List.length_eq_zero_iff.mp hlen), not_not.mpr h.nonneg,
      fun ⟨hlen, hzero, hbit⟩ => h.minimal hlen hzero hbit⟩
  · rintro ⟨hlen, hnonneg, hpadded⟩
    exact ⟨fun hnil => hlen (List.length_eq_zero_iff.mpr hnil), not_not.mp hnonneg,
      fun h1 h0 hbit => hpadded ⟨h1, h0, hbit⟩⟩

theorem isValidSignatureEncoding_sigBytes {b₀ b₁ b₂ b lenR lenS hashType : UInt8}
    {R S : List UInt8} (hR : lenR.toNat = R.length) (hS : lenS.toNat = S.length) :
    isValidSignatureEncoding (sigBytes b₀ b₁ b₂ lenR R b lenS S hashType) = true ↔
      (9 ≤ R.length + S.length + 7 ∧ R.length + S.length + 7 ≤ 73) ∧ b₀ = 0x30 ∧
        b₁.toNat = R.length + S.length + 4 ∧ b₂ = 0x02 ∧ DerInteger R ∧ b = 0x02 ∧
          DerInteger S := by
  have hlenR : ((sigBytes b₀ b₁ b₂ lenR R b lenS S hashType).getD 3 0).toNat = R.length := hR
  have hlenS : ((sigBytes b₀ b₁ b₂ lenR R b lenS S hashType).getD (5 + R.length) 0).toNat =
      S.length := by
    rw [show 5 + R.length = R.length + 1 + 4 by omega, getD_sigBytes_tail]
    exact hS
  have hb : (sigBytes b₀ b₁ b₂ lenR R b lenS S hashType).getD (R.length + 4) 0 = b :=
    getD_sigBytes_tail 0
  have h0 : (sigBytes b₀ b₁ b₂ lenR R b lenS S hashType).getD 0 0 = b₀ := rfl
  have h1 : (sigBytes b₀ b₁ b₂ lenR R b lenS S hashType).getD 1 0 = b₁ := rfl
  have h2 : (sigBytes b₀ b₁ b₂ lenR R b lenS S hashType).getD 2 0 = b₂ := rfl
  -- the bytes of an integer are looked at only where it has them
  have hR0 : ¬ R.length = 0 →
      (sigBytes b₀ b₁ b₂ lenR R b lenS S hashType).getD 4 0 = R.getD 0 0 :=
    fun h => getD_sigBytes_R (i := 0) (by omega)
  have hR1 : 1 < R.length →
      (sigBytes b₀ b₁ b₂ lenR R b lenS S hashType).getD 5 0 = R.getD 1 0 :=
    fun h => getD_sigBytes_R h
  have hS0 : ¬ S.length = 0 →
      (sigBytes b₀ b₁ b₂ lenR R b lenS S hashType).getD (R.length + 6) 0 = S.getD 0 0 :=
    fun h => getD_sigBytes_S (i := 0) (by omega)
  have hS1 : 1 < S.length →
      (sigBytes b₀ b₁ b₂ lenR R b lenS S hashType).getD (R.length + 7) 0 = S.getD 1 0 :=
    fun h => getD_sigBytes_S h
  simp only [isValidSignatureEncoding, reject_iff, hlenR, hlenS, length_sigBytes, derInteger_iff,
    hb, h0, h1, h2]
  constructor
  · rintro ⟨hmin, hmax, hb₀, hb₁, -, -, hb₂, hR, hRneg, hRpad, hb, hS, hSneg, hSpad, -⟩
    rw [hR0 hR] at hRneg
    rw [hS0 hS] at hSneg
    refine ⟨⟨by omega, by omega⟩, not_not.mp hb₀, by omega, not_not.mp hb₂, ⟨hR, hRneg, ?_⟩,
      not_not.mp hb, hS, hSneg, ?_⟩
    · rintro ⟨hlen, hzero, hbit⟩
      exact hRpad ⟨hlen, (hR0 hR).trans hzero, by rw [hR1 hlen]; exact hbit⟩
    · rintro ⟨hlen, hzero, hbit⟩
      exact hSpad ⟨hlen, (hS0 hS).trans hzero, by rw [hS1 hlen]; exact hbit⟩
  · rintro ⟨⟨hmin, hmax⟩, hb₀, hb₁, hb₂, ⟨hR, hRneg, hRpad⟩, hb, hS, hSneg, hSpad⟩
    refine ⟨by omega, by omega, not_not.mpr hb₀, by omega, by omega, by omega, not_not.mpr hb₂,
      hR, ?_, ?_, not_not.mpr hb, hS, ?_, ?_, trivial⟩
    · rwa [hR0 hR]
    · rintro ⟨hlen, hzero, hbit⟩
      exact hRpad ⟨hlen, (hR0 hR).symm.trans hzero, by rw [← hR1 hlen]; exact hbit⟩
    · rwa [hS0 hS]
    · rintro ⟨hlen, hzero, hbit⟩
      exact hSpad ⟨hlen, (hS0 hS).symm.trans hzero, by rw [← hS1 hlen]; exact hbit⟩

theorem exists_sigBytes (hmin : 9 ≤ sig.length) (hR : 5 + (sig.getD 3 0).toNat < sig.length)
    (hlen : (sig.getD 3 0).toNat + (sig.getD (5 + (sig.getD 3 0).toNat) 0).toNat + 7 =
      sig.length) : ∃ b₀ b₁ b₂ lenR R b lenS S hashType,
    sig = sigBytes b₀ b₁ b₂ lenR R b lenS S hashType ∧ lenR.toNat = R.length ∧
      lenS.toNat = S.length := by
  obtain - | ⟨b₀, - | ⟨b₁, - | ⟨b₂, - | ⟨lenR, rest⟩⟩⟩⟩ := sig
  iterate 4 exact absurd hmin (by simp)
  have hlenR : (b₀ :: b₁ :: b₂ :: lenR :: rest).getD 3 0 = lenR := rfl
  have hlenS : (b₀ :: b₁ :: b₂ :: lenR :: rest).getD (5 + lenR.toNat) 0 =
      rest.getD (lenR.toNat + 1) 0 := by
    rw [show 5 + lenR.toNat = lenR.toNat + 1 + 4 by omega]
    rfl
  rw [hlenR, hlenS] at hlen
  rw [hlenR] at hR
  simp only [List.length_cons] at hlen hR
  have htake : (rest.take lenR.toNat).length = lenR.toNat := by
    rw [List.length_take]
    omega
  -- what follows R
  obtain ⟨b, lenS, tail, htail⟩ : ∃ b lenS tail, rest.drop lenR.toNat = b :: lenS :: tail := by
    have hdrop : (rest.drop lenR.toNat).length = rest.length - lenR.toNat := List.length_drop
    generalize rest.drop lenR.toNat = after at hdrop
    obtain - | ⟨b, - | ⟨lenS, tail⟩⟩ := after
    · rw [List.length_nil] at hdrop
      omega
    · rw [List.length_singleton] at hdrop
      omega
    · exact ⟨b, lenS, tail, rfl⟩
  have hrest : rest = rest.take lenR.toNat ++ b :: lenS :: tail := by
    rw [← htail, List.take_append_drop]
  have hlenS' : rest.getD (lenR.toNat + 1) 0 = lenS := by
    rw [hrest, List.getD_append_right _ _ _ _ (by omega), htake, Nat.add_sub_cancel_left]
    rfl
  have htotal := congrArg List.length hrest
  rw [List.length_append, List.length_cons, List.length_cons, htake] at htotal
  rw [hlenS'] at hlen
  have hne : tail ≠ [] := by
    intro hnil
    rw [hnil, List.length_nil] at htotal
    omega
  refine ⟨b₀, b₁, b₂, lenR, rest.take lenR.toNat, b, lenS, tail.dropLast, tail.getLast hne, ?_,
    htake.symm, ?_⟩
  · rw [sigBytes, List.dropLast_append_getLast hne, ← hrest]
  · rw [List.length_dropLast]
    omega

theorem isValidSignatureEncoding_iff (sig : Valtype) : isValidSignatureEncoding sig = true ↔
    9 ≤ sig.length ∧ sig.length ≤ 73 ∧ ∃ R S hashType, DerSignature R S hashType sig := by
  constructor
  · intro h
    have htests := h
    simp only [isValidSignatureEncoding, reject_iff] at htests
    obtain ⟨hmin, -, -, -, hinside, hlen, -⟩ := htests
    obtain ⟨b₀, b₁, b₂, lenR, R, b, lenS, S, hashType, rfl, hlenR, hlenS⟩ :=
      exists_sigBytes (by omega) (by omega) (not_not.mp hlen)
    obtain ⟨hsize, rfl, htotal, rfl, hR, rfl, hS⟩ :=
      (isValidSignatureEncoding_sigBytes hlenR hlenS).mp h
    rw [length_sigBytes]
    refine ⟨hsize.1, hsize.2, R, S, hashType, ⟨b₁, lenR, lenS, rfl, ?_, hlenR, hlenS⟩, hR, hS⟩
    rw [length_sigBytes]
    omega
  · rintro ⟨hmin, hmax, R, S, hashType, ⟨total, lenR, lenS, rfl, htotal, hlenR, hlenS⟩, hR, hS⟩
    rw [length_sigBytes] at hmin hmax htotal
    exact (isValidSignatureEncoding_sigBytes hlenR hlenS).mpr
      ⟨⟨hmin, hmax⟩, rfl, by omega, rfl, hR, rfl, hS⟩

theorem DerSignature.ext {R S : List UInt8} {hashType : UInt8} {sig sig' : Valtype}
    (h : DerSignature R S hashType sig) (h' : DerSignature R S hashType sig') : sig = sig' := by
  obtain ⟨total, lenR, lenS, rfl, htotal, hlenR, hlenS⟩ := h.bytes
  obtain ⟨total', lenR', lenS', rfl, htotal', hlenR', hlenS'⟩ := h'.bytes
  rw [length_sigBytes] at htotal htotal'
  rw [UInt8.toNat_inj.mp (htotal.trans htotal'.symm), UInt8.toNat_inj.mp (hlenR.trans hlenR'.symm),
    UInt8.toNat_inj.mp (hlenS.trans hlenS'.symm)]

/-- **Exactly strict DER is accepted**: no byte is read that is not there, what is accepted has
the strict encoding, which has one pair of integers, and these with the hash type have no other. -/
theorem isValidSignatureEncoding_strict (sig : Valtype) :
    isValidSignatureEncodingRead sig = some (isValidSignatureEncoding sig) ∧
      (isValidSignatureEncoding sig = true ↔
        9 ≤ sig.length ∧ sig.length ≤ 73 ∧ ∃ R S hashType, DerSignature R S hashType sig) ∧
      ∀ R S hashType, DerSignature R S hashType sig → ∀ sig' R' S',
        DerSignature R' S' hashType sig' → readBE R = readBE R' → readBE S = readBE S' →
          sig = sig' := by
  refine ⟨isValidSignatureEncodingRead_eq sig, isValidSignatureEncoding_iff sig, ?_⟩
  intro R S hashType h sig' R' S' h' hR hS
  obtain rfl := h.R.ext h'.R hR
  obtain rfl := h.S.ext h'.S hS
  exact h.ext h'

end Interpreter

end Stonecoin
