/-
The basic types in a stream (`serialize.h`): numbers of a fixed width, compact sizes, hashes
and vectors.

A compact size has one spelling: a longer one than needed is refused, and so is a size above
`MAX_SIZE`.
-/
import Stonecoin.Readers
import Stonecoin.Script
import Mathlib.Algebra.Order.Ring.Nat
import Mathlib.Data.Nat.Bitwise

namespace Stonecoin

open Readers

/-! ### Numbers -/

theorem length_writeLE : ∀ w n : ℕ, (writeLE w n).length = w := by
  intro w
  induction w with
  | zero => exact fun _ => rfl
  | succ w ih => exact fun n => congrArg Nat.succ (ih _)

theorem readLE_writeLE : ∀ {w n : ℕ}, n < 256 ^ w → readLE (writeLE w n) = n := by
  intro w
  induction w with
  | zero =>
    intro n h
    obtain rfl : n = 0 := Nat.lt_one_iff.mp h
    rfl
  | succ w ih =>
    intro n h
    have hdiv : n / 256 < 256 ^ w := Nat.div_lt_of_lt_mul (by rwa [Nat.mul_comm, ← Nat.pow_succ])
    have hbyte : (UInt8.ofNat (n % 256)).toNat = n % 256 :=
      UInt8.toNat_ofNat_of_lt (Nat.mod_lt n (by decide))
    rw [writeLE, readLE, ih hdiv, hbyte]
    omega

/-- `ser_readdata8` to `ser_readdata64`. -/
def readNum (w : ℕ) : Reader UInt8 ℕ := readLE <$> Readers.take w

theorem reads_num {w n : ℕ} (h : n < 256 ^ w) : Reads (readNum w) (writeLE w n) n := by
  have htake := Reads.take (writeLE w n)
  rw [length_writeLE] at htake
  have hmap := htake.map readLE
  rwa [readLE_writeLE h] at hmap

/-! ### Compact sizes -/

def MAX_SIZE : ℕ := 0x02000000

def writeCompactSize (nSize : ℕ) : List UInt8 :=
  if nSize < 253 then [UInt8.ofNat nSize]
  else if nSize ≤ 0xffff then 253 :: writeLE 2 nSize
  else if nSize ≤ 0xffffffff then 254 :: writeLE 4 nSize
  else 255 :: writeLE 8 nSize

/-- A number that is written too long is refused. -/
def readCanonical (w least : ℕ) : Reader UInt8 ℕ := do
  let nSizeRet ← readNum w
  if nSizeRet < least then failure else pure nSizeRet

def readSize (chSize : UInt8) : Reader UInt8 ℕ :=
  if chSize < 253 then pure chSize.toNat
  else if chSize = 253 then readCanonical 2 253
  else if chSize = 254 then readCanonical 4 0x10000
  else readCanonical 8 0x100000000

def readCompactSize : Reader UInt8 ℕ := do
  let chSize ← next
  let nSizeRet ← readSize chSize
  if MAX_SIZE < nSizeRet then failure else pure nSizeRet

theorem reads_canonical {w least n : ℕ} (h : n < 256 ^ w) (hleast : least ≤ n) :
    Reads (readCanonical w least) (writeLE w n) n := by
  have hpure : Reads (if n < least then failure else pure n : Reader UInt8 ℕ) [] n := by
    rw [if_neg (Nat.not_lt.mpr hleast)]
    exact .pure n
  have hbind := (reads_num h).bind (f := fun n => if n < least then failure else pure n) hpure
  rwa [List.append_nil] at hbind

theorem readsIf_compactSize {n : ℕ} (h : n < 256 ^ 8) :
    ReadsIf (n ≤ MAX_SIZE) readCompactSize (writeCompactSize n) n := by
  have hend : ReadsIf (n ≤ MAX_SIZE)
      (if MAX_SIZE < n then failure else pure n : Reader UInt8 ℕ) [] n := by
    constructor
    · intro hok
      rw [if_neg (Nat.not_lt.mpr hok)]
      exact .pure n
    · intro hnot rest
      rw [if_pos (Nat.not_le.mp hnot)]
      rfl
  have hall : ∀ (b : UInt8) (w : List UInt8), Reads (readSize b) w n →
      ReadsIf (n ≤ MAX_SIZE) readCompactSize (b :: w) n := by
    intro b w hw
    have htail := ReadsIf.after (f := fun n => if MAX_SIZE < n then failure else pure n) hw hend
    rw [List.append_nil] at htail
    exact ReadsIf.after (Reads.next b) htail
  unfold writeCompactSize
  split
  next hlt =>
    apply hall
    have hb : (UInt8.ofNat n).toNat = n := UInt8.toNat_ofNat_of_lt (hlt.trans (by decide))
    have hsmall : UInt8.ofNat n < 253 := by
      rw [UInt8.lt_iff_toNat_lt, hb]
      exact hlt
    unfold readSize
    rw [if_pos hsmall, hb]
    exact .pure n
  next hge =>
    split
    next hle =>
      exact hall 253 _ (reads_canonical (lt_of_le_of_lt hle (by decide)) (Nat.not_lt.mp hge))
    next hge' =>
      split
      next hle =>
        exact hall 254 _ (reads_canonical (lt_of_le_of_lt hle (by decide)) (Nat.not_le.mp hge'))
      next hge'' => exact hall 255 _ (reads_canonical h (Nat.not_le.mp hge''))

theorem reads_compactSize {n : ℕ} (h : n ≤ MAX_SIZE) :
    Reads readCompactSize (writeCompactSize n) n :=
  (readsIf_compactSize (lt_of_le_of_lt h (by decide))).reads h

/-! ### Bits in a byte -/

theorem testBit_foldl (p : ℕ → Bool) (j : ℕ) : ∀ n,
    ((List.range n).foldl (fun acc i => if p i then acc ||| 1 <<< i else acc) 0).testBit j =
      (decide (j < n) && p j)
  | 0 => by simp
  | n + 1 => by
    rw [List.range_succ, List.foldl_append, List.foldl_cons, List.foldl_nil]
    have ih := testBit_foldl p j n
    by_cases hp : p n = true
    · rw [if_pos hp, Nat.testBit_or, ih, Nat.one_shiftLeft, Nat.testBit_two_pow]
      rcases lt_trichotomy j n with hlt | rfl | hgt
      · simp [hlt, hlt.ne', Nat.lt_succ_of_lt hlt]
      · simp [hp]
      · simp [hgt.not_gt, hgt.ne, show ¬ j < n + 1 by omega]
    · rw [if_neg hp, ih]
      rcases lt_trichotomy j n with hlt | rfl | hgt
      · simp [hlt, Nat.lt_succ_of_lt hlt]
      · simp [hp]
      · simp [hgt.not_gt, show ¬ j < n + 1 by omega]

/-- Eight bits in a byte, the lowest first. -/
def packByte (p : ℕ → Bool) : ℕ :=
  (List.range 8).foldl (fun acc i => if p i then acc ||| 1 <<< i else acc) 0

theorem packByte_lt (p : ℕ → Bool) : packByte p < 256 := by
  refine Nat.lt_pow_two_of_testBit (n := 8) _ fun j hj => ?_
  rw [packByte, testBit_foldl]
  simp [hj]

theorem toNat_packByte (p : ℕ → Bool) : (UInt8.ofNat (packByte p)).toNat = packByte p :=
  UInt8.toNat_ofNat_of_lt (packByte_lt p)

theorem bit_packByte (p : ℕ → Bool) {i : ℕ} (hi : i < 8) :
    decide ((UInt8.ofNat (packByte p)).toNat &&& 1 <<< i ≠ 0) = p i := by
  have hbit : (packByte p).testBit i = (decide (i < 8) && p i) := testBit_foldl p i 8
  rw [decide_eq_true hi, Bool.true_and] at hbit
  rw [toNat_packByte, Nat.one_shiftLeft, Nat.and_two_pow, hbit]
  cases p i with
  | true => simp
  | false => simp

/-! ### Vectors and hashes -/

variable {α : Type}

/-- A vector: its size, then its elements. -/
def writeVector (write : α → List UInt8) (v : List α) : List UInt8 :=
  writeCompactSize v.length ++ v.flatMap write

def readVector (read : Reader UInt8 α) : Reader UInt8 (List α) := do
  let nSize ← readCompactSize
  (List.replicate nSize ()).mapM fun _ => read

theorem reads_replicate {read : Reader UInt8 α} {write : α → List UInt8} : ∀ {v : List α},
    (∀ a ∈ v, Reads read (write a) a) →
    Reads ((List.replicate v.length ()).mapM fun _ => read) (v.flatMap write) v := by
  intro v
  induction v with
  | nil => exact fun _ => .pure []
  | cons a v ih =>
    intro h
    rw [List.length_cons, List.replicate_succ, List.mapM_cons, List.flatMap_cons]
    refine (h a List.mem_cons_self).bind ?_
    have hrest := (ih fun b hb => h b (List.mem_cons_of_mem a hb)).bind
      (f := fun v => pure (a :: v)) (.pure (a :: v))
    rwa [List.append_nil] at hrest

theorem reads_vector {read : Reader UInt8 α} {write : α → List UInt8} {v : List α}
    (hlen : v.length ≤ MAX_SIZE) (h : ∀ a ∈ v, Reads read (write a) a) :
    Reads (readVector read) (writeVector write v) v :=
  (reads_compactSize hlen).bind (reads_replicate h)

theorem readsIf_vector {read : Reader UInt8 α} {write : α → List UInt8} {p : α → Prop}
    {v : List α} (hlen : v.length < 256 ^ 8) (h : ∀ a ∈ v, ReadsIf (p a) read (write a) a) :
    ReadsIf (v.length ≤ MAX_SIZE ∧ ∀ a ∈ v, p a) (readVector read) (writeVector write v) v := by
  have hrest := ReadsIf.replicate (g := id) h
  rw [List.map_id] at hrest
  exact (readsIf_compactSize hlen).bind hrest

theorem readsIf_bytes {v : List UInt8} (hlen : v.length < 256 ^ 8) :
    ReadsIf (v.length ≤ MAX_SIZE) (readVector next) (writeVector (fun b => [b]) v) v :=
  (readsIf_vector hlen fun b _ => (Reads.next b).readsIf).congr (by simp)

/-- `uint256`: its 32 bytes. -/
def writeHash (h : UInt256) : List UInt8 := writeLE 32 h.toNat

def readHash : Reader UInt8 UInt256 := BitVec.ofNat 256 <$> readNum 32

theorem reads_hash (h : UInt256) : Reads readHash (writeHash h) h := by
  have hlt : h.toNat < 256 ^ 32 := h.isLt
  have hmap := (reads_num hlt).map (BitVec.ofNat 256)
  rwa [BitVec.ofNat_toNat, BitVec.setWidth_eq] at hmap

/-! ### Signed numbers and flags -/

/-- The values of a signed type of `w` bytes. -/
def IsInt (w : ℕ) (n : ℤ) : Prop := -256 ^ w ≤ 2 * n ∧ 2 * n < 256 ^ w

instance (w : ℕ) (n : ℤ) : Decidable (IsInt w n) := inferInstanceAs (Decidable (_ ∧ _))

/-- The two's complement in `w` bytes. -/
def writeInt (w : ℕ) (n : ℤ) : List UInt8 := writeLE w (n % 256 ^ w).toNat

def readInt (w : ℕ) : Reader UInt8 ℤ :=
  (fun u : ℕ => if 2 * (u : ℤ) < 256 ^ w then (u : ℤ) else u - 256 ^ w) <$> readNum w

theorem reads_int_mod (w : ℕ) (n : ℤ) :
    Reads (readInt w) (writeInt w n)
      (if 2 * (n % 256 ^ w) < 256 ^ w then n % 256 ^ w else n % 256 ^ w - 256 ^ w) := by
  have hpos : (0 : ℤ) < 256 ^ w := Int.pow_pos (by decide)
  have hnn : 0 ≤ n % 256 ^ w := Int.emod_nonneg n hpos.ne'
  have hlt : (n % 256 ^ w).toNat < 256 ^ w := by
    have hmod := Int.emod_lt_of_pos n hpos
    apply Int.ofNat_lt.mp
    rw [Int.toNat_of_nonneg hnn]
    exact_mod_cast hmod
  have hmap := (reads_num hlt).map
    fun u : ℕ => if 2 * (u : ℤ) < 256 ^ w then (u : ℤ) else u - 256 ^ w
  rwa [Int.toNat_of_nonneg hnn] at hmap

theorem reads_int {w : ℕ} {n : ℤ} (h : IsInt w n) : Reads (readInt w) (writeInt w n) n := by
  have hread := reads_int_mod w n
  obtain ⟨hge, hlt⟩ := h
  generalize (256 : ℤ) ^ w = p at hge hlt hread
  rcases le_or_gt 0 n with hn | hn
  · rw [Int.emod_eq_of_lt hn (by omega), if_pos hlt] at hread
    exact hread
  · have hmod : n % p = n + p := by
      rw [← Int.add_emod_right, Int.emod_eq_of_lt (by omega) (by omega)]
    rw [hmod, if_neg (by omega), Int.add_sub_cancel] at hread
    exact hread

def writeBool (f : Bool) : List UInt8 := [if f then 1 else 0]

def readBool : Reader UInt8 Bool := (fun b => decide (b ≠ 0)) <$> next

theorem reads_bool (f : Bool) : Reads readBool (writeBool f) f := by
  have hmap := (Reads.next (if f then 1 else 0 : UInt8)).map fun b => decide (b ≠ 0)
  cases f with
  | true => exact hmap
  | false => exact hmap

end Stonecoin
