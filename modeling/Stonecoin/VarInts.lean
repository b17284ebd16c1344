/-
Variable-length integers of the unsigned types, and the numbers that bytes stand for
(`serialize.h`: `GetSizeOfVarInt`, `WriteVarInt`, `ReadVarInt`, `ReadCompactSize`).

The functions are those of `Compressor.lean` in the arithmetic of a type with `w` bits: the writer
never leaves the type, and the reader drops what does not fit (`readVarIntBits_eq`).  As `varIntTmp`
writes every complete sequence of bytes from its number (`varIntTmp_value`), no two of them have the
same number.

  * `varInt_oneToOne`: numbers and their bytes, for all four types.
-/
import Stonecoin.Compressor
import Stonecoin.ScriptNum
import Stonecoin.Streams
import Mathlib.Data.BitVec
import Mathlib.Tactic.Ring

namespace Stonecoin

open Readers

/-! ### The functions -/

inductive Unsigned
  | uint8
  | uint16
  | uint32
  | uint64
  deriving DecidableEq, Repr

/-- `sizeof`. -/
def Unsigned.size : Unsigned → ℕ
  | uint8 => 1
  | uint16 => 2
  | uint32 => 4
  | uint64 => 8

abbrev Unsigned.bits (I : Unsigned) : ℕ := I.size * 8

variable {w : ℕ}

def nextVarInt (n : BitVec w) : BitVec w := (n >>> 7) - 1#w

theorem toNat_nextVarInt {n : BitVec w} (h : 0x7F < n.toNat) :
    (nextVarInt n).toNat = n.toNat / 128 - 1 := by
  have hw : 1 < 2 ^ w := Nat.lt_of_le_of_lt (by omega) n.isLt
  have hone : (1#w).toNat = 1 := by rw [BitVec.toNat_ofNat, Nat.mod_eq_of_lt hw]
  have hshift : (n >>> 7).toNat = n.toNat / 128 := by
    rw [BitVec.toNat_ushiftRight, Nat.shiftRight_eq_div_pow]
  have hle : n.toNat / 128 < 2 ^ w := Nat.lt_of_le_of_lt (Nat.div_le_self _ _) n.isLt
  rw [nextVarInt, BitVec.toNat_sub_of_le, hshift, hone]
  rw [BitVec.le_def, hshift, hone]
  omega

theorem nextVarInt_lt {n : BitVec w} (h : ¬ n.toNat ≤ 0x7F) :
    (nextVarInt n).toNat < n.toNat := by
  rw [toNat_nextVarInt (Nat.lt_of_not_le h)]
  omega

def sizeOfVarIntBits (n : BitVec w) : ℕ :=
  if n.toNat ≤ 0x7F then 1 else sizeOfVarIntBits (nextVarInt n) + 1
termination_by n.toNat
decreasing_by exact nextVarInt_lt ‹_›

def tmpByte (len n : ℕ) : UInt8 := UInt8.ofNat ((n &&& 0x7F) ||| if len = 0 then 0x00 else 0x80)

/-- The loop of `WriteVarInt`, which fills `tmp` behind its first `len` bytes; there is no result
when it leaves the buffer. -/
def writeVarIntLoop (tmpSize len : ℕ) (n : BitVec w) : Option (List UInt8) :=
  if len < tmpSize then
    if n.toNat ≤ 0x7F then some [tmpByte len n.toNat]
    else (writeVarIntLoop tmpSize (len + 1) (nextVarInt n)).map (tmpByte len n.toNat :: ·)
  else none
termination_by n.toNat
decreasing_by exact nextVarInt_lt ‹_›

/-- `WriteVarInt`: the bytes of `tmp`, from the last one back. -/
def writeVarIntBits (I : Unsigned) (n : BitVec I.bits) : Option (List UInt8) :=
  (writeVarIntLoop ((I.size * 8 + 6) / 7) 0 n).map List.reverse

def readVarIntBitsLoop (w : ℕ) : BitVec w → Reader UInt8 (BitVec w)
  | _, [] => none
  | n, chData :: s =>
    if chData.toNat &&& 0x80 ≠ 0 then
      readVarIntBitsLoop w ((n <<< 7 ||| BitVec.ofNat w (chData.toNat &&& 0x7F)) + 1) s
    else some (n <<< 7 ||| BitVec.ofNat w (chData.toNat &&& 0x7F), s)

def readVarIntBits (I : Unsigned) : Reader UInt8 (BitVec I.bits) := readVarIntBitsLoop I.bits 0

/-! ### The writer stays in the type -/

theorem sizeOfVarIntBits_eq (n : BitVec w) : sizeOfVarIntBits n = getSizeOfVarInt n.toNat := by
  fun_induction sizeOfVarIntBits n with
  | case1 n h => rw [getSizeOfVarInt, if_pos (by omega)]
  | case2 n h ih =>
    rw [getSizeOfVarInt, if_neg (by omega), ih, toNat_nextVarInt (Nat.lt_of_not_le h)]
    congr 2
    omega

theorem tmpByte_eq (len n : ℕ) : tmpByte len n = varIntByte len n := by
  rw [tmpByte, varIntByte, show (0x7F : ℕ) = 2 ^ 7 - 1 from rfl, Nat.and_two_pow_sub_one_eq_mod]
  congr 2

theorem writeVarIntLoop_eq {tmpSize len : ℕ} {n : BitVec w}
    (h : len + getSizeOfVarInt n.toNat ≤ tmpSize) :
    writeVarIntLoop tmpSize len n = some (varIntTmp len n.toNat) := by
  fun_induction writeVarIntLoop tmpSize len n with
  | case1 len n hlen hle => rw [varIntTmp, if_pos (by omega), tmpByte_eq]
  | case2 len n hlen hgt ih =>
    have hnext : ((n.toNat : ℤ) / 128 - 1) = ((nextVarInt n).toNat : ℤ) := by
      rw [toNat_nextVarInt (Nat.lt_of_not_le hgt)]
      omega
    rw [getSizeOfVarInt, if_neg (by omega), hnext] at h
    rw [varIntTmp, if_neg (by omega), ih (by omega), hnext, tmpByte_eq]
    rfl
  | case3 len n hlen =>
    rw [getSizeOfVarInt] at h
    split at h <;> omega

theorem getSizeOfVarInt_le {k n : ℕ} (h : n < 128 ^ (k + 1)) : getSizeOfVarInt n ≤ k + 1 := by
  induction k generalizing n with
  | zero =>
    rw [getSizeOfVarInt, if_pos (by omega)]
  | succ k ih =>
    rw [getSizeOfVarInt]
    split
    · omega
    next hgt =>
      have hnext : ((n : ℤ) / 128 - 1) = ((n / 128 - 1 : ℕ) : ℤ) := by omega
      rw [hnext]
      refine Nat.succ_le_succ (ih ?_)
      rw [pow_succ] at h
      have hdiv := Nat.div_lt_of_lt_mul (Nat.mul_comm _ 128 ▸ h)
      omega

theorem size_le_tmp (I : Unsigned) (n : BitVec I.bits) :
    getSizeOfVarInt n.toNat ≤ (I.size * 8 + 6) / 7 := by
  have hn := n.isLt
  cases I with
  | uint8 => exact getSizeOfVarInt_le (k := 1) (hn.trans (by decide))
  | uint16 => exact getSizeOfVarInt_le (k := 2) (hn.trans (by decide))
  | uint32 => exact getSizeOfVarInt_le (k := 4) (hn.trans (by decide))
  | uint64 => exact getSizeOfVarInt_le (k := 9) (hn.trans (by decide))

theorem writeVarIntBits_eq (I : Unsigned) (n : BitVec I.bits) :
    writeVarIntBits I n = some (writeVarInt n.toNat) := by
  rw [writeVarIntBits, writeVarIntLoop_eq (by rw [Nat.zero_add]; exact size_le_tmp I n)]
  rfl

/-! ### The reader drops what does not fit -/

theorem ofInt_digit (m : ℤ) (b : UInt8) : (BitVec.ofInt w m) <<< 7 |||
      BitVec.ofNat w (b.toNat &&& 0x7F) = BitVec.ofInt w (m * 128 + b.toNat % 128) := by
  have hlow : b.toNat &&& 0x7F = b.toNat % 128 := Nat.and_two_pow_sub_one_eq_mod b.toNat 7
  have hand : (BitVec.ofInt w m) <<< 7 &&& BitVec.ofNat w (b.toNat &&& 0x7F) = 0#w := by
    refine BitVec.eq_of_getLsbD_eq fun i hi => ?_
    rw [BitVec.getLsbD_and, BitVec.getLsbD_shiftLeft, BitVec.getLsbD_ofNat, hlow]
    by_cases hseven : i < 7
    · simp [hseven]
    · have hbit : (b.toNat % 128).testBit i = false :=
        Nat.testBit_lt_two_pow (lt_of_lt_of_le (Nat.mod_lt _ (by decide))
          (Nat.pow_le_pow_right (by decide) (Nat.le_of_not_lt hseven) : 2 ^ 7 ≤ 2 ^ i))
      simp [hbit]
  rw [← BitVec.add_eq_or_of_and_eq_zero _ _ hand, BitVec.shiftLeft_eq_mul_twoPow, hlow,
    BitVec.ofInt_add, BitVec.ofInt_mul]
  have htwo : BitVec.twoPow w 7 = BitVec.ofInt w 128 := by
    apply BitVec.eq_of_toNat_eq
    rw [BitVec.toNat_twoPow]
    rfl
  have hdigit : BitVec.ofInt w ((b.toNat : ℤ) % 128) = BitVec.ofNat w (b.toNat % 128) := by
    rw [← BitVec.ofInt_natCast, Int.natCast_mod]
    rfl
  rw [htwo, hdigit]

theorem readVarIntBitsLoop_eq (m : ℤ) (s : List UInt8) :
    readVarIntBitsLoop w (BitVec.ofInt w m) s =
      (readVarIntLoop m s).map fun p => (BitVec.ofInt w p.1, p.2) := by
  induction s generalizing m with
  | nil => rfl
  | cons chData s ih =>
    rw [readVarIntBitsLoop, readVarIntLoop, ofInt_digit]
    split
    · rw [show (1 : BitVec w) = BitVec.ofInt w 1 from rfl, ← BitVec.ofInt_add, ih]
    · rfl

theorem readVarIntBits_eq (I : Unsigned) (s : List UInt8) : readVarIntBits I s =
    (readVarInt s).map fun p => (BitVec.ofInt I.bits p.1, p.2) :=
  readVarIntBitsLoop_eq 0 s

/-! ### Complete sequences -/

/-- Bit 128 is set in all bytes but the last one. -/
def Complete : List UInt8 → Prop
  | [] => False
  | [b] => b.toNat &&& 0x80 = 0
  | b :: c :: a => b.toNat &&& 0x80 ≠ 0 ∧ Complete (c :: a)

/-- The number of a sequence: a digit of base 128 in each byte, and one more in all bytes but the
last one. -/
def mathValue : List UInt8 → ℕ
  | [] => 0
  | [b] => b.toNat &&& 0x7F
  | b :: c :: a => 128 ^ (a.length + 1) * ((b.toNat &&& 0x7F) + 1) + mathValue (c :: a)

theorem and_low (b : UInt8) : b.toNat &&& 0x7F = b.toNat % 128 :=
  Nat.and_two_pow_sub_one_eq_mod b.toNat 7

theorem readVarIntLoop_complete {s : List UInt8} (h : Complete s) (m : ℤ) (rest : List UInt8) :
    readVarIntLoop m (s ++ rest) = some (m * 128 ^ s.length + mathValue s, rest) := by
  induction s generalizing m with
  | nil => exact h.elim
  | cons b s ih =>
    cases s with
    | nil =>
      have hlast : b.toNat &&& 0x80 = 0 := h
      rw [List.singleton_append, readVarIntLoop, if_neg (not_not_intro hlast), mathValue, and_low]
      simp
    | cons c a =>
      rw [List.cons_append, readVarIntLoop, if_pos h.1, ih h.2, mathValue, and_low]
      congr 2
      push_cast [List.length_cons]
      ring

theorem readVarInt_complete {s : List UInt8} (h : Complete s) (rest : List UInt8) :
    readVarInt (s ++ rest) = some ((mathValue s : ℤ), rest) := by
  rw [readVarInt, readVarIntLoop_complete h, Int.zero_mul, Int.zero_add]

/-- The number of a sequence whose last byte comes first, as `WriteVarInt` collects it. -/
def tmpValue : List UInt8 → ℕ
  | [] => 0
  | [b] => b.toNat % 128
  | b :: c :: r => b.toNat % 128 + 128 * (tmpValue (c :: r) + 1)

/-- A sequence whose last byte comes first, behind `len` others. -/
def Collected : ℕ → List UInt8 → Prop
  | _, [] => False
  | len, [b] => b.toNat &&& 0x80 ≠ 0 ↔ len ≠ 0
  | len, b :: c :: r => (b.toNat &&& 0x80 ≠ 0 ↔ len ≠ 0) ∧ Collected (len + 1) (c :: r)

theorem byte_eq {len : ℕ} {b : UInt8} {n : ℤ} (hn : n % 128 = b.toNat % 128)
    (hflag : b.toNat &&& 0x80 ≠ 0 ↔ len ≠ 0) : varIntByte len n = b := by
  have hall : ∀ m < 256, UInt8.ofNat (m % 128 ||| if m &&& 0x80 = 0 then 0x00 else 0x80) =
      UInt8.ofNat m := by decide +kernel
  have hlen : (len = 0) = (b.toNat &&& 0x80 = 0) := by
    rw [eq_iff_iff]
    exact not_iff_not.mp hflag.symm
  have hdigit : (n % 128).toNat = b.toNat % 128 := by omega
  rw [varIntByte, hdigit]
  simp only [hlen]
  rw [hall _ b.toNat_lt, UInt8.ofNat_toNat]

theorem varIntTmp_value {len : ℕ} {r : List UInt8} (h : Collected len r) :
    varIntTmp len (tmpValue r) = r := by
  induction r generalizing len with
  | nil => exact h.elim
  | cons b r ih =>
    rw [varIntTmp]
    cases r with
    | nil =>
      rw [tmpValue, if_pos (by omega), byte_eq (by omega) h]
    | cons c r =>
      have hnext : ((tmpValue (b :: c :: r) : ℕ) : ℤ) / 128 - 1 = (tmpValue (c :: r) : ℕ) := by
        rw [tmpValue]
        omega
      rw [hnext, ih h.2, tmpValue, if_neg (by omega), byte_eq (by omega) h.1]

theorem collected_snoc {b : UInt8} {r : List UInt8} (hne : r ≠ []) (hb : b.toNat &&& 0x80 ≠ 0) :
    ∀ {len : ℕ}, Collected len r → Collected len (r ++ [b]) ∧
      tmpValue (r ++ [b]) = 128 ^ r.length * (b.toNat % 128 + 1) + tmpValue r := by
  induction r with
  | nil => exact absurd rfl hne
  | cons c r ih =>
    intro len h
    cases r with
    | nil =>
      refine ⟨⟨h, iff_of_true hb (Nat.succ_ne_zero len)⟩, ?_⟩
      show c.toNat % 128 + 128 * (b.toNat % 128 + 1) = 128 ^ 1 * (b.toNat % 128 + 1) + c.toNat % 128
      ring
    | cons d r =>
      obtain ⟨hcollected, hvalue⟩ := ih (by simp) h.2
      refine ⟨⟨h.1, hcollected⟩, ?_⟩
      show c.toNat % 128 + 128 * (tmpValue (d :: r ++ [b]) + 1) =
        128 ^ (d :: r).length.succ * (b.toNat % 128 + 1) + (c.toNat % 128 + 128 * (tmpValue (d :: r) + 1))
      rw [hvalue, pow_succ]
      ring

theorem collected_reverse {s : List UInt8} (h : Complete s) :
    Collected 0 s.reverse ∧ tmpValue s.reverse = mathValue s := by
  induction s with
  | nil => exact h.elim
  | cons b s ih =>
    cases s with
    | nil =>
      have hlast : b.toNat &&& 0x80 = 0 := h
      exact ⟨iff_of_false (not_not_intro hlast) (not_not_intro rfl), (and_low b).symm⟩
    | cons c a =>
      obtain ⟨hcollected, hvalue⟩ := ih h.2
      have hsnoc := collected_snoc (r := (c :: a).reverse) (by simp) h.1 hcollected
      rw [hvalue, List.length_reverse, List.length_cons] at hsnoc
      rw [List.reverse_cons, mathValue, and_low]
      exact hsnoc

theorem writeVarInt_mathValue {s : List UInt8} (h : Complete s) :
    writeVarInt (mathValue s) = s := by
  obtain ⟨hcollected, hvalue⟩ := collected_reverse h
  rw [writeVarInt, ← hvalue, varIntTmp_value hcollected, List.reverse_reverse]

/-! ### Compact sizes -/

theorem writeLE_readLE : ∀ l : List UInt8, writeLE l.length (readLE l) = l := by
  intro l
  induction l with
  | nil => rfl
  | cons b l ih =>
    have hb := b.toNat_lt
    have hlow : (b.toNat + 256 * readLE l) % 256 = b.toNat := by omega
    have hhigh : (b.toNat + 256 * readLE l) / 256 = readLE l := by omega
    rw [readLE, List.length_cons, writeLE, hlow, hhigh, ih, UInt8.ofNat_toNat]

theorem failure_ne_some {α : Type} {s : List UInt8} {p : α × List UInt8} :
    (failure : Reader UInt8 α) s ≠ some p := by
  intro h
  have hnone : none = some p := h
  exact absurd hnone (by simp)

theorem readCanonical_some {k least n : ℕ} {s rest : List UInt8}
    (h : readCanonical k least s = some (n, rest)) :
    least ≤ n ∧ n < 256 ^ k ∧ s = writeLE k n ++ rest := by
  obtain ⟨m, s', hnum, hcheck⟩ := bind_eq_some.mp h
  have hlen : k ≤ s.length := by
    by_contra hshort
    have hnone : readNum k s = none := by
      show (Readers.take k s).bind _ = none
      rw [Readers.take, if_neg hshort]
      rfl
    exact absurd (hnone.symm.trans hnum) (by simp)
  have hsome : readNum k s = some (readLE (s.take k), s.drop k) := by
    show (Readers.take k s).bind (fun p => some (readLE p.1, p.2)) = _
    rw [Readers.take, if_pos hlen]
    rfl
  obtain ⟨rfl, rfl⟩ := Prod.mk.inj (Option.some.inj (hsome.symm.trans hnum))
  have hk : (s.take k).length = k := List.length_take_of_le hlen
  by_cases hleast : readLE (s.take k) < least
  · rw [if_pos hleast] at hcheck
    exact absurd hcheck failure_ne_some
  rw [if_neg hleast] at hcheck
  obtain ⟨rfl, rfl⟩ := Prod.mk.inj (Option.some.inj hcheck)
  have hwrite := writeLE_readLE (s.take k)
  rw [hk] at hwrite
  refine ⟨Nat.le_of_not_lt hleast, ?_, ?_⟩
  · have hlt := readLE_lt (s.take k)
    rwa [hk] at hlt
  · rw [hwrite, List.take_append_drop]

theorem readCompactSize_some {n : ℕ} {s rest : List UInt8}
    (h : readCompactSize s = some (n, rest)) : n ≤ MAX_SIZE ∧ s = writeCompactSize n ++ rest := by
  obtain ⟨chSize, s₁, hnext, hrest⟩ := bind_eq_some.mp h
  obtain ⟨m, s₂, hsize, hcheck⟩ := bind_eq_some.mp hrest
  obtain rfl : s = chSize :: s₁ := by
    cases s with
    | nil => exact absurd hnext (by simp [next])
    | cons b s =>
      obtain ⟨rfl, rfl⟩ := Prod.mk.inj (Option.some.inj hnext)
      rfl
  by_cases hmax : MAX_SIZE < m
  · rw [if_pos hmax] at hcheck
    exact absurd hcheck failure_ne_some
  rw [if_neg hmax] at hcheck
  obtain ⟨rfl, rfl⟩ := Prod.mk.inj (Option.some.inj hcheck)
  refine ⟨Nat.le_of_not_lt hmax, ?_⟩
  unfold readSize at hsize
  split at hsize
  next hsmall =>
    obtain ⟨rfl, rfl⟩ := Prod.mk.inj (Option.some.inj hsize)
    have hlt : chSize.toNat < 253 := UInt8.lt_iff_toNat_lt.mp hsmall
    rw [writeCompactSize, if_pos hlt, UInt8.ofNat_toNat]
    rfl
  next =>
    split at hsize
    next h253 =>
      obtain ⟨hleast, hlt, rfl⟩ := readCanonical_some hsize
      rw [writeCompactSize, if_neg (Nat.not_lt.mpr hleast), if_pos (by omega), h253]
      rfl
    next h253 =>
      split at hsize
      next h254 =>
        obtain ⟨hleast, hlt, rfl⟩ := readCanonical_some hsize
        rw [writeCompactSize, if_neg (by omega), if_neg (by omega), if_pos (by omega), h254]
        rfl
      next h254 =>
        -- such a size is above `MAX_SIZE`
        have hleast := (readCanonical_some hsize).1
        exact absurd (hleast.trans (Nat.le_of_not_lt hmax)) (by decide)

theorem length_writeCompactSize (n : ℕ) : (writeCompactSize n).length = getSizeOfCompactSize n := by
  unfold writeCompactSize getSizeOfCompactSize
  split_ifs <;> simp [length_writeLE]

/-! ### Numbers and their bytes -/

theorem ofInt_toNat {w : ℕ} (n : BitVec w) : BitVec.ofInt w (n.toNat : ℤ) = n := by
  rw [BitVec.ofInt_natCast, BitVec.ofNat_toNat, BitVec.setWidth_eq]

theorem readVarIntBits_complete (I : Unsigned) {s : List UInt8} (h : Complete s)
    (rest : List UInt8) :
    readVarIntBits I (s ++ rest) = some (BitVec.ofNat I.bits (mathValue s), rest) := by
  rw [readVarIntBits_eq, readVarInt_complete h, Option.map_some, BitVec.ofInt_natCast]

/-- **Variable-length integers are one-to-one.**  A number of each unsigned type is written in as
many bytes as announced, within the buffer, and read back; two complete sequences whose numbers fit
the type are not read as the same number.  A compact size is read back, and one that is read has
been written. -/
theorem varInt_oneToOne (I : Unsigned) :
    (∀ n : BitVec I.bits, ∃ bytes, writeVarIntBits I n = some bytes ∧
      bytes.length = sizeOfVarIntBits n ∧
      ∀ rest, readVarIntBits I (bytes ++ rest) = some (n, rest)) ∧
    (∀ s t, Complete s → Complete t → mathValue s < 2 ^ I.bits → mathValue t < 2 ^ I.bits →
      s ≠ t → ∃ m n, readVarIntBits I s = some (m, []) ∧ readVarIntBits I t = some (n, []) ∧
        m ≠ n) ∧
    (∀ n ≤ MAX_SIZE, (∀ rest, readCompactSize (writeCompactSize n ++ rest) = some (n, rest)) ∧
      (writeCompactSize n).length = getSizeOfCompactSize n) ∧
    ∀ s n rest, readCompactSize s = some (n, rest) → s = writeCompactSize n ++ rest := by
  refine ⟨fun n => ?_, fun s t hs ht hfits hfits' hne => ?_, fun n hn => ?_,
    fun s n rest h => (readCompactSize_some h).2⟩
  · refine ⟨_, writeVarIntBits_eq I n, ?_, fun rest => ?_⟩
    · rw [length_writeVarInt, sizeOfVarIntBits_eq]
    · rw [readVarIntBits_eq, reads_varInt (Int.natCast_nonneg _) rest, Option.map_some,
        ofInt_toNat]
  · have hread := readVarIntBits_complete I hs []
    have hread' := readVarIntBits_complete I ht []
    rw [List.append_nil] at hread hread'
    refine ⟨_, _, hread, hread', fun heq => hne ?_⟩
    have hvalue := congrArg BitVec.toNat heq
    rw [BitVec.toNat_ofNat, BitVec.toNat_ofNat, Nat.mod_eq_of_lt hfits,
      Nat.mod_eq_of_lt hfits'] at hvalue
    rw [← writeVarInt_mathValue hs, hvalue, writeVarInt_mathValue ht]
  · exact ⟨reads_compactSize hn, length_writeCompactSize n⟩

/-- Two sequences of two bytes, and a compact size of three. -/
theorem varInt_oneToOne_two :
    (∃ m n, readVarIntBits .uint16 [0x80, 0x00] = some (m, []) ∧
      readVarIntBits .uint16 [0x80, 0x01] = some (n, []) ∧ m ≠ n) ∧
    (∀ rest, readCompactSize (writeCompactSize 253 ++ rest) = some (253, rest)) ∧
    [0xfd, 0xfd, 0x00] = writeCompactSize 253 ++ [] :=
  ⟨(varInt_oneToOne .uint16).2.1 [0x80, 0x00] [0x80, 0x01] ⟨by decide, rfl⟩
      ⟨by decide, rfl⟩ (by decide) (by decide) (by decide),
    ((varInt_oneToOne .uint16).2.2.1 253 (by decide)).1,
    (varInt_oneToOne .uint16).2.2.2 [0xfd, 0xfd, 0x00] 253 [] (by decide)⟩

end Stonecoin
