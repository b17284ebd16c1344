/-
The database format of coins (`CCoins::Serialize`) and of undo records (`CTxInUndo`).

Coins are written as version, header code, bitmask, outputs and height.  The first two outputs
have bits in the header code.  The others have bits in the mask, whose bytes are written up
to the last one that is not zero; the header code says how many of them are not zero, less
one when neither of the first two outputs is there.  Reading stops at the right byte because
the last byte written is not zero (`reads_mask`).

What is written is read back, and has the size that `GetSerializeSize` says (`format_roundTrip`).
Three things are not in the format: `nRounds` of an output, what is left in an output that is
spent, and the version in an undo record without a height (`not_in_format`).

Numbers have no width here: those of the format fit their types up to 2^32 outputs.
-/
import Stonecoin.Compressor
import Stonecoin.UpdateCoins
import Stonecoin.CoinOutputs
import Stonecoin.Streams

namespace Stonecoin

open Readers

namespace CCoins

/-! ### Writing coins -/

def maskByte (c : CCoins) (b : ℕ) : ℕ :=
  (List.range 8).foldl
    (fun chAvail i => if c.isAvailable (2 + b * 8 + i) then chAvail ||| 1 <<< i else chAvail) 0

/-- The byte `b` of the bitmask has an output (`!fZero`). -/
def maskUsed (c : CCoins) (b : ℕ) : Bool :=
  (List.range 8).any fun i => c.isAvailable (2 + b * 8 + i)

/-- `CalcMaskSize`: the number of bytes for the bitmask, and of those that are not zero. -/
def calcMaskSize (c : CCoins) : ℕ × ℕ :=
  (List.range ((c.vout.length - 2 + 7) / 8)).foldl
    (fun r b => if c.maskUsed b then (b + 1, r.2 + 1) else r) (0, 0)

def nCode (c : CCoins) : ℕ :=
  let fFirst := c.isAvailable 0
  let fSecond := c.isAvailable 1
  8 * (c.calcMaskSize.2 - if fFirst || fSecond then 0 else 1) + (if c.fCoinBase then 1 else 0) +
    (if fFirst then 2 else 0) + if fSecond then 4 else 0

variable (secp : Secp256k1)

def getSerializeSize (c : CCoins) : ℕ :=
  getSizeOfVarInt c.nVersion + getSizeOfVarInt c.nCode + c.calcMaskSize.1 +
    ((c.vout.filter fun o => !o.isNull).map (CTxOutCompressor.getSerializeSize secp)).sum +
    getSizeOfVarInt c.nHeight

/-- `Serialize`; `none` stands for the failed assertion that an output is left. -/
def serialize (c : CCoins) : Option (List UInt8) :=
  if c.isAvailable 0 || c.isAvailable 1 || c.calcMaskSize.2 ≠ 0 then
    some (writeVarInt c.nVersion ++ (writeVarInt c.nCode ++
      ((List.range c.calcMaskSize.1).map (fun b => UInt8.ofNat (c.maskByte b)) ++
        ((c.vout.filter fun o => !o.isNull).flatMap (CTxOutCompressor.serialize secp) ++
          writeVarInt c.nHeight))))
  else none

/-! ### Reading coins -/

def maskBits (chAvail : UInt8) : List Bool :=
  (List.range 8).map fun p => decide (chAvail.toNat &&& 1 <<< p ≠ 0)

/-- The loop that reads the bitmask up to a number of bytes that are not zero. -/
def maskLoop : ℕ → Reader UInt8 (List Bool)
  | 0, s => some ([], s)
  | _ + 1, [] => none
  | nMaskCode + 1, chAvail :: s =>
    (maskLoop (if chAvail ≠ 0 then nMaskCode else nMaskCode + 1) s).map fun r =>
      (maskBits chAvail ++ r.1, r.2)

def unserialize : Reader UInt8 CCoins := do
  let nVersion ← readVarInt
  let nCode := (← readVarInt).toNat
  let mask ← maskLoop (nCode / 8 + if nCode &&& 6 ≠ 0 then 0 else 1)
  let vAvail := [decide (nCode &&& 2 ≠ 0), decide (nCode &&& 4 ≠ 0)] ++ mask
  let vout ← vAvail.mapM fun f => if f then CTxOutCompressor.unserialize secp else pure .null
  let nHeight ← readVarInt
  return cleanup ⟨decide (nCode &&& 1 ≠ 0), vout, nHeight, nVersion⟩

/-! ### The bitmask -/

theorem maskByte_eq (c : CCoins) (b : ℕ) :
    c.maskByte b = packByte fun i => c.isAvailable (2 + b * 8 + i) := rfl

theorem testBit_maskByte (c : CCoins) (b j : ℕ) :
    (c.maskByte b).testBit j = (decide (j < 8) && c.isAvailable (2 + b * 8 + j)) :=
  testBit_foldl (fun i => c.isAvailable (2 + b * 8 + i)) j 8

theorem toNat_maskByte (c : CCoins) (b : ℕ) : (UInt8.ofNat (c.maskByte b)).toNat = c.maskByte b :=
  toNat_packByte _

theorem maskBits_maskByte (c : CCoins) (b : ℕ) :
    maskBits (UInt8.ofNat (c.maskByte b)) =
      (List.range 8).map fun i => c.isAvailable (2 + b * 8 + i) := by
  refine List.map_congr_left fun i hi => ?_
  rw [maskByte_eq]
  exact bit_packByte _ (List.mem_range.mp hi)

theorem maskByte_ne_zero_iff (c : CCoins) (b : ℕ) :
    UInt8.ofNat (c.maskByte b) ≠ 0 ↔ c.maskUsed b = true := by
  have hzero : UInt8.ofNat (c.maskByte b) = 0 ↔ c.maskByte b = 0 := by
    rw [← UInt8.toNat_inj, toNat_maskByte]
    rfl
  rw [maskUsed, List.any_eq_true, Ne, hzero]
  constructor
  · intro h
    obtain ⟨i, hi⟩ := Nat.exists_testBit_of_ne_zero h
    rw [testBit_maskByte, Bool.and_eq_true, decide_eq_true_iff] at hi
    exact ⟨i, List.mem_range.mpr hi.1, hi.2⟩
  · rintro ⟨i, hi, havail⟩ h
    have hbit := testBit_maskByte c b i
    rw [h, havail, decide_eq_true (List.mem_range.mp hi)] at hbit
    simp at hbit

theorem reads_mask : ∀ bs : List UInt8, (∀ h : bs ≠ [], bs.getLast h ≠ 0) →
    Reads (maskLoop (bs.countP fun ch => ch ≠ 0)) bs (bs.flatMap maskBits)
  | [], _ => fun rest => by simp [maskLoop]
  | ch :: bs, hlast => by
    intro rest
    have hrest : bs ≠ [] → ∀ h : bs ≠ [], bs.getLast h ≠ 0 := by
      intro hne h
      have := hlast (List.cons_ne_nil ch bs)
      rwa [List.getLast_cons h] at this
    -- at the last byte the loop has one byte to go, and before it at least one
    obtain ⟨k, hk, hnext⟩ : ∃ k, (ch :: bs).countP (fun ch => ch ≠ 0) = k + 1 ∧
        (if ch ≠ 0 then k else k + 1) = bs.countP fun ch => ch ≠ 0 := by
      by_cases hzero : ch ≠ 0
      · exact ⟨bs.countP fun ch => ch ≠ 0, by simp [hzero], by simp [hzero]⟩
      · have hne : bs ≠ [] := by
          rintro rfl
          exact hlast (by simp) (by simpa using hzero)
        have hpos : 0 < bs.countP fun ch => ch ≠ 0 :=
          List.countP_pos_iff.mpr ⟨_, List.getLast_mem hne, by simpa using hrest hne hne⟩
        refine ⟨bs.countP (fun ch => ch ≠ 0) - 1, ?_, ?_⟩
        · rw [List.countP_cons_of_neg (by simpa using hzero)]
          omega
        · rw [if_neg hzero]
          omega
    rw [hk]
    show (maskLoop (if ch ≠ 0 then k else k + 1) (bs ++ rest)).map _ = _
    rw [hnext]
    have ih := reads_mask bs (fun h => hrest h h) rest
    rw [ih]
    rfl

/-- What `CalcMaskSize` counts: the mask ends with its last byte that is not zero. -/
structure MaskSize (c : CCoins) (n : ℕ) (r : ℕ × ℕ) : Prop where
  le : r.1 ≤ n
  last : ∀ b, r.1 = b + 1 → UInt8.ofNat (c.maskByte b) ≠ 0
  used : ∀ b < n, UInt8.ofNat (c.maskByte b) ≠ 0 → b < r.1
  count : r.2 = ((List.range r.1).map fun b => UInt8.ofNat (c.maskByte b)).countP fun ch => ch ≠ 0

theorem maskSize_foldl (c : CCoins) : ∀ n, MaskSize c n ((List.range n).foldl
    (fun r b => if c.maskUsed b then (b + 1, r.2 + 1) else r) (0, 0))
  | 0 => ⟨le_rfl, by simp, by simp, rfl⟩
  | n + 1 => by
    have ih := maskSize_foldl c n
    rw [List.range_succ, List.foldl_append, List.foldl_cons, List.foldl_nil]
    generalize (List.range n).foldl _ (0, 0) = r at ih ⊢
    by_cases hused : UInt8.ofNat (c.maskByte n) ≠ 0
    · rw [if_pos ((c.maskByte_ne_zero_iff n).mp hused)]
      refine ⟨le_rfl, fun b hb => ?_, fun b hb _ => by simpa using hb, ?_⟩
      · obtain rfl : n = b := by simpa using hb
        exact hused
      · -- the bytes between the last one and this one are zero
        have hzero : ∀ k, r.1 ≤ k → k ≤ n →
            ((List.range k).map fun b => UInt8.ofNat (c.maskByte b)).countP (fun ch => ch ≠ 0) = r.2 := by
          intro k hk
          induction k, hk using Nat.le_induction with
          | base => exact fun _ => ih.count.symm
          | succ k hk ihk =>
            intro hkn
            have hskip : ¬ UInt8.ofNat (c.maskByte k) ≠ 0 :=
              fun hne => absurd (ih.used k (by omega) hne) (by omega)
            rw [List.range_succ, List.map_append, List.countP_append, ihk (by omega)]
            simpa using hskip
        rw [List.range_succ, List.map_append, List.countP_append, hzero n ih.le le_rfl]
        simpa using hused
    · rw [if_neg (by rw [← maskByte_ne_zero_iff]; exact hused)]
      refine ⟨ih.le.trans (Nat.le_succ n), ih.last, fun b hb hne => ?_, ih.count⟩
      rcases Nat.lt_succ_iff_lt_or_eq.mp hb with hlt | rfl
      · exact ih.used b hlt hne
      · exact absurd hne hused

theorem maskSize (c : CCoins) : MaskSize c ((c.vout.length - 2 + 7) / 8) c.calcMaskSize :=
  maskSize_foldl c _

/-! ### The outputs -/

theorem isAvailable_getD (c : CCoins) (i : ℕ) :
    c.isAvailable i = !(c.vout.getD i .null).isNull := by
  rw [isAvailable, List.getD_eq_getElem?_getD]
  cases c.vout[i]? with
  | none => rfl
  | some o => rfl

theorem map_getD_range (os : List CTxOut) : ∀ k,
    (List.range (os.length + k)).map (fun i => os.getD i .null) = os ++ List.replicate k .null
  | 0 => by
    refine List.ext_getElem (by simp) fun i hi hi' => ?_
    have hlt : i < os.length := by simpa using hi
    simp [hlt]
  | k + 1 => by
    rw [← Nat.add_assoc, List.range_succ, List.map_append, map_getD_range os k,
      List.replicate_succ', ← List.append_assoc]
    simp

theorem flatMap_groups (f : ℕ → Bool) : ∀ n,
    (List.range n).flatMap (fun b => (List.range 8).map fun i => f (2 + b * 8 + i)) =
      (List.range (n * 8)).map fun i => f (2 + i)
  | 0 => rfl
  | n + 1 => by
    rw [List.range_succ (n := n), List.flatMap_append, flatMap_groups f n, Nat.succ_mul,
      List.range_add, List.map_append, List.map_map, List.flatMap_singleton]
    simp only [Function.comp_def, Nat.add_assoc]

theorem avail_bits (c : CCoins) (n : ℕ) :
    [c.isAvailable 0, c.isAvailable 1] ++
        ((List.range n).map fun b => UInt8.ofNat (c.maskByte b)).flatMap maskBits =
      (List.range (2 + n * 8)).map c.isAvailable := by
  rw [List.flatMap_map]
  simp only [maskBits_maskByte]
  rw [flatMap_groups c.isAvailable n, List.range_add, List.map_append, List.map_map]
  rfl

theorem Clean.last_available {c : CCoins} (h : c.Clean) (hne : c.vout ≠ []) :
    c.isAvailable (c.vout.length - 1) = true := by
  have hlast : ∀ os : List CTxOut, dropNulls os = os → ∀ hos : os ≠ [],
      (os.getLast hos).isNull = false := by
    intro os
    induction os with
    | nil => exact fun _ hos => absurd rfl hos
    | cons o os ih =>
      intro hclean _
      cases hdrop : dropNulls os with
      | nil =>
        rw [dropNulls, hdrop] at hclean
        by_cases hnull : o.isNull = true
        · simp [hnull] at hclean
        · obtain rfl : os = [] := by simpa [hnull, eq_comm] using hclean
          simpa using hnull
      | cons p ps =>
        have htail : dropNulls os = os := dropNulls_tail hclean
        have hos : os ≠ [] := by
          rintro rfl
          simp [dropNulls] at hdrop
        rw [List.getLast_cons hos]
        exact ih htail hos
  have hlt : c.vout.length - 1 < c.vout.length :=
    Nat.sub_lt (List.length_pos_iff.mpr hne) Nat.one_pos
  rw [isAvailable_getD, List.getD_eq_getElem _ _ hlt, ← List.getLast_eq_getElem hne]
  simp [hlast c.vout h hne]

theorem length_le_mask {c : CCoins} (h : c.Clean) :
    c.vout.length ≤ 2 + c.calcMaskSize.1 * 8 := by
  rcases Nat.le_total c.vout.length 2 with hle | hge
  · omega
  rcases Nat.eq_or_lt_of_le hge with heq | hgt
  · omega
  have hne : c.vout ≠ [] := List.length_pos_iff.mp (by omega)
  have hlast := h.last_available hne
  -- the byte of the last output
  obtain ⟨b, i, hi, hplace⟩ : ∃ b i, i < 8 ∧ c.vout.length - 1 = 2 + b * 8 + i :=
    ⟨(c.vout.length - 3) / 8, (c.vout.length - 3) % 8, by omega, by omega⟩
  have hused : UInt8.ofNat (c.maskByte b) ≠ 0 := by
    rw [maskByte_ne_zero_iff, maskUsed, List.any_eq_true]
    exact ⟨i, List.mem_range.mpr hi, by rwa [← hplace]⟩
  have := c.maskSize.used b (by omega) hused
  omega

theorem dropNulls_append_nulls (k : ℕ) : ∀ os : List CTxOut,
    dropNulls (os ++ List.replicate k .null) = dropNulls os
  | [] => by
    rw [List.nil_append]
    exact dropNulls_eq_nil_iff.mpr (by simp)
  | o :: os => by
    rw [List.cons_append, dropNulls, dropNulls, dropNulls_append_nulls k os]

/-! ### The header code -/

theorem and_code (m k : ℕ) {r : ℕ} (hk : k < 8) : (8 * m + r) &&& k = r &&& k := by
  have hmod : ∀ a, a &&& k = a % 8 &&& k := by
    intro a
    have h := Nat.and_mod_two_pow (n := 3) (a := a) (b := k)
    have hle : a &&& k ≤ k := Nat.and_le_right
    rwa [show (2 : ℕ) ^ 3 = 8 from rfl, Nat.mod_eq_of_lt (by omega : a &&& k < 8),
      Nat.mod_eq_of_lt hk] at h
  rw [hmod, Nat.mul_add_mod, ← hmod]

theorem code_parts (m : ℕ) (fCoinBase fFirst fSecond : Bool) :
    let code := 8 * m + (if fCoinBase then 1 else 0) + (if fFirst then 2 else 0) +
      if fSecond then 4 else 0
    code / 8 = m ∧ decide (code &&& 1 ≠ 0) = fCoinBase ∧ decide (code &&& 2 ≠ 0) = fFirst ∧
      decide (code &&& 4 ≠ 0) = fSecond ∧ decide (code &&& 6 ≠ 0) = (fFirst || fSecond) := by
  intro code
  obtain ⟨r, hr, hcode⟩ : ∃ r, r = (if fCoinBase then 1 else 0) + (if fFirst then 2 else 0) +
      (if fSecond then 4 else 0) ∧ code = 8 * m + r := ⟨_, rfl, by simp only [code, Nat.add_assoc]⟩
  have hlt : r < 8 := by
    rw [hr]
    split_ifs <;> decide
  rw [hcode, and_code m 1 (by decide), and_code m 2 (by decide), and_code m 4 (by decide),
    and_code m 6 (by decide), hr]
  refine ⟨by omega, ?_⟩
  cases fCoinBase <;> cases fFirst <;> cases fSecond <;> decide

theorem nCode_parts (c : CCoins)
    (h : (c.isAvailable 0 || c.isAvailable 1 || c.calcMaskSize.2 ≠ 0) = true) :
    c.nCode / 8 + (if c.nCode &&& 6 ≠ 0 then 0 else 1) = c.calcMaskSize.2 ∧
      decide (c.nCode &&& 1 ≠ 0) = c.fCoinBase ∧
      decide (c.nCode &&& 2 ≠ 0) = c.isAvailable 0 ∧
      decide (c.nCode &&& 4 ≠ 0) = c.isAvailable 1 := by
  obtain ⟨hdiv, h1, h2, h4, h6⟩ : c.nCode / 8 = (c.calcMaskSize.2 -
      if c.isAvailable 0 || c.isAvailable 1 then 0 else 1) ∧
      decide (c.nCode &&& 1 ≠ 0) = c.fCoinBase ∧ decide (c.nCode &&& 2 ≠ 0) = c.isAvailable 0 ∧
      decide (c.nCode &&& 4 ≠ 0) = c.isAvailable 1 ∧
      decide (c.nCode &&& 6 ≠ 0) = (c.isAvailable 0 || c.isAvailable 1) := code_parts _ _ _ _
  refine ⟨?_, h1, h2, h4⟩
  rw [hdiv]
  by_cases hfirst : (c.isAvailable 0 || c.isAvailable 1) = true
  · have hbits : c.nCode &&& 6 ≠ 0 := of_decide_eq_true (h6.trans hfirst)
    rw [if_pos hbits, if_pos hfirst]
    rfl
  · have hbits : ¬ c.nCode &&& 6 ≠ 0 := by
      intro hne
      exact hfirst (h6.symm.trans (decide_eq_true hne))
    have hpos : c.calcMaskSize.2 ≠ 0 := by
      rw [Bool.not_eq_true] at hfirst
      simpa [hfirst] using h
    rw [if_neg hbits, if_neg hfirst]
    omega

/-! ### Round trips -/

/-- **Coins that the format holds**: clean, with an output left, with nothing in the outputs
that is not stored, and with numbers in range. -/
structure Storable (c : CCoins) : Prop where
  canonical : c.Canonical
  unspent : c.isPruned = false
  amount : ∀ o ∈ c.vout, o.isNull = false → 0 ≤ o.nValue ∧ o.nValue ≤ MAX_MONEY
  nRounds : ∀ o ∈ c.vout, o.nRounds = CTxOut.null.nRounds
  height : 0 ≤ c.nHeight ∧ c.nHeight < 2 ^ 30
  version : 0 ≤ c.nVersion

theorem Storable.serialize_assert {c : CCoins} (h : c.Storable) :
    (c.isAvailable 0 || c.isAvailable 1 || c.calcMaskSize.2 ≠ 0) = true := by
  have hne : c.vout ≠ [] := by
    intro hnil
    have hpruned := h.canonical.clean.isPruned_iff.mpr hnil
    rw [h.unspent] at hpruned
    exact absurd hpruned (by simp)
  have hlast := h.canonical.clean.last_available hne
  have hcover := length_le_mask h.canonical.clean
  have hpos : 0 < c.vout.length := List.length_pos_iff.mpr hne
  by_contra hnot
  simp only [Bool.not_eq_true, Bool.or_eq_false_iff, decide_eq_false_iff_not, not_not] at hnot
  obtain ⟨⟨h0, h1⟩, hmask⟩ := hnot
  -- without a byte in the mask the last output is one of the first two
  have hcount := c.maskSize.count
  have hzero : c.calcMaskSize.1 = 0 := by
    by_contra hne'
    obtain ⟨b, hb⟩ := Nat.exists_eq_succ_of_ne_zero hne'
    have hused := c.maskSize.last b hb
    rw [hmask, hb, List.range_succ, List.map_append, List.countP_append] at hcount
    simp [hused] at hcount
  have hsmall : c.vout.length - 1 = 0 ∨ c.vout.length - 1 = 1 := by omega
  rcases hsmall with heq | heq
  · rw [heq, h0] at hlast
    exact absurd hlast (by simp)
  · rw [heq, h1] at hlast
    exact absurd hlast (by simp)

variable {secp}

theorem reads_outputs (hsecp : secp.Inverts) {c : CCoins} (h : c.Storable) (k : ℕ) :
    Reads (((List.range (c.vout.length + k)).map c.isAvailable).mapM fun f =>
        if f then CTxOutCompressor.unserialize secp else pure CTxOut.null)
      ((c.vout.filter fun o => !o.isNull).flatMap (CTxOutCompressor.serialize secp))
      (c.vout ++ List.replicate k CTxOut.null) := by
  -- one word for each entry, empty for a spent one
  have hword : (c.vout.filter fun o => !o.isNull).flatMap (CTxOutCompressor.serialize secp) =
      (c.vout ++ List.replicate k CTxOut.null).flatMap fun o =>
        if o.isNull then [] else CTxOutCompressor.serialize secp o := by
    have hnulls : (List.replicate k CTxOut.null).flatMap (fun o =>
        if o.isNull then [] else CTxOutCompressor.serialize secp o) = [] := by
      rw [List.flatMap_eq_nil_iff]
      intro o ho
      rw [List.eq_of_mem_replicate ho]
      rfl
    rw [List.flatMap_append, hnulls, List.append_nil]
    induction c.vout with
    | nil => rfl
    | cons o os ih =>
      cases ho : o.isNull with
      | true => simp [ho, ih]
      | false => simp [ho, ih]
  have hentries : (List.range (c.vout.length + k)).map c.isAvailable =
      (c.vout ++ List.replicate k CTxOut.null).map fun o => !o.isNull := by
    rw [← map_getD_range, List.map_map]
    refine List.map_congr_left fun i _ => ?_
    exact c.isAvailable_getD i
  have hread : Reads ((c.vout ++ List.replicate k CTxOut.null).mapM fun o =>
        if !o.isNull then CTxOutCompressor.unserialize secp else pure CTxOut.null)
      ((c.vout ++ List.replicate k CTxOut.null).flatMap fun o =>
        if o.isNull then [] else CTxOutCompressor.serialize secp o)
      ((c.vout ++ List.replicate k CTxOut.null).map id) := by
    refine Reads.mapM fun o ho => ?_
    rcases List.mem_append.mp ho with ho | ho
    · cases hnull : o.isNull with
      | true =>
        obtain rfl := h.canonical.null o ho hnull
        exact .pure _
      | false =>
        obtain ⟨h0, hmax⟩ := h.amount o ho hnull
        have hout := reads_txOut hsecp h0 hmax
        rw [← h.nRounds o ho] at hout
        exact hout
    · obtain rfl := List.eq_of_mem_replicate ho
      exact .pure _
  rw [List.map_id] at hread
  rw [hentries, List.mapM_map, hword]
  exact hread

theorem reads_coins (hsecp : secp.Inverts) {c : CCoins} (h : c.Storable) :
    ∃ bytes, c.serialize secp = some bytes ∧ bytes.length = c.getSerializeSize secp ∧
      Reads (unserialize secp) bytes c := by
  have hassert := h.serialize_assert
  obtain ⟨hcount, hcoinbase, hfirst, hsecond⟩ := c.nCode_parts hassert
  refine ⟨_, if_pos hassert, ?_, ?_⟩
  · have houts : ((c.vout.filter fun o => !o.isNull).flatMap
        (CTxOutCompressor.serialize secp)).length =
        ((c.vout.filter fun o => !o.isNull).map (CTxOutCompressor.getSerializeSize secp)).sum := by
      rw [List.length_flatMap]
      simp only [length_serialize_txOut]
    simp only [List.length_append, length_writeVarInt, List.length_map, List.length_range, houts,
      getSerializeSize]
    omega
  · have hlastbyte : ∀ hne, ((List.range c.calcMaskSize.1).map fun b =>
        UInt8.ofNat (c.maskByte b)).getLast hne ≠ 0 := by
      intro hne
      obtain ⟨b, hb⟩ : ∃ b, c.calcMaskSize.1 = b + 1 :=
        Nat.exists_eq_succ_of_ne_zero fun hzero => hne (by rw [hzero]; rfl)
      have hused := c.maskSize.last b hb
      simpa [hb, List.range_succ] using hused
    have hmask := reads_mask _ hlastbyte
    rw [← c.maskSize.count] at hmask
    obtain ⟨k, hk⟩ := Nat.exists_eq_add_of_le (length_le_mask h.canonical.clean)
    have houts := reads_outputs hsecp h k
    rw [← hk, ← avail_bits] at houts
    have hclean : cleanup ⟨c.fCoinBase, c.vout ++ List.replicate k .null, c.nHeight, c.nVersion⟩ =
        c := by
      rw [cleanup, dropNulls_append_nulls, h.canonical.clean]
    rw [← List.append_nil (writeVarInt c.nHeight)]
    refine (reads_varInt h.version).bind ((reads_varInt (Int.natCast_nonneg _)).bind ?_)
    simp only [Int.toNat_natCast, hcount, hcoinbase, hfirst, hsecond]
    refine hmask.bind (houts.bind ((reads_varInt h.height.1).bind ?_))
    rw [hclean]
    exact .pure c

end CCoins

/-! ### Undo records -/

namespace CTxInUndo

variable (secp : Secp256k1)

def nCode (undo : CTxInUndo) : ℕ := undo.nHeight * 2 + if undo.fCoinBase then 1 else 0

def getSerializeSize (undo : CTxInUndo) : ℕ :=
  getSizeOfVarInt undo.nCode + (if undo.nHeight > 0 then getSizeOfVarInt undo.nVersion else 0) +
    CTxOutCompressor.getSerializeSize secp undo.txout

def serialize (undo : CTxInUndo) : List UInt8 :=
  writeVarInt undo.nCode ++ ((if undo.nHeight > 0 then writeVarInt undo.nVersion else []) ++
    CTxOutCompressor.serialize secp undo.txout)

def unserialize : Reader UInt8 CTxInUndo := do
  let nCode := (← readVarInt).toNat
  let nHeight := nCode / 2
  let nVersion ← if nHeight > 0 then readVarInt else pure 0
  let txout ← CTxOutCompressor.unserialize secp
  return ⟨txout, decide (nCode &&& 1 ≠ 0), nHeight, nVersion⟩

/-- **Undo records that the format holds**: the version belongs to the height. -/
structure Storable (undo : CTxInUndo) : Prop where
  amount : 0 ≤ undo.txout.nValue ∧ undo.txout.nValue ≤ MAX_MONEY
  nRounds : undo.txout.nRounds = CTxOut.null.nRounds
  height : undo.nHeight < 2 ^ 30
  version : 0 ≤ undo.nVersion
  known : 0 < undo.nHeight ∨ undo.nVersion = 0

variable {secp}

theorem nCode_parts (undo : CTxInUndo) :
    undo.nCode / 2 = undo.nHeight ∧ decide (undo.nCode &&& 1 ≠ 0) = undo.fCoinBase := by
  rw [nCode, Nat.and_one_is_mod]
  cases undo.fCoinBase with
  | true =>
    refine ⟨by simp; omega, decide_eq_true ?_⟩
    simp
  | false =>
    refine ⟨by simp, decide_eq_false ?_⟩
    simp

theorem reads_undo (hsecp : secp.Inverts) {undo : CTxInUndo} (h : undo.Storable) :
    (undo.serialize secp).length = undo.getSerializeSize secp ∧
      Reads (unserialize secp) (undo.serialize secp) undo := by
  obtain ⟨hheight, hcoinbase⟩ := undo.nCode_parts
  constructor
  · rw [serialize, getSerializeSize, List.length_append, List.length_append, length_writeVarInt,
      length_serialize_txOut, Nat.add_assoc]
    split_ifs <;> simp
  · have hout := reads_txOut hsecp h.amount.1 h.amount.2
    rw [← h.nRounds] at hout
    rw [serialize, ← List.append_nil (CTxOutCompressor.serialize secp undo.txout)]
    refine (reads_varInt (Int.natCast_nonneg _)).bind ?_
    simp only [Int.toNat_natCast, hheight, hcoinbase]
    by_cases hpos : undo.nHeight > 0
    · rw [if_pos hpos, if_pos hpos]
      refine (reads_varInt h.version).bind ?_
      refine hout.bind ?_
      exact .pure undo
    · rw [if_neg hpos, if_neg hpos]
      refine (Reads.pure 0).bind ?_
      refine hout.bind ?_
      rw [← h.known.resolve_left hpos]
      exact .pure undo

end CTxInUndo

/-- **The database format round-trips**: coins and undo records that the format holds are
read back from exactly the bytes written, and the bytes are as many as `GetSerializeSize`
says. -/
theorem format_roundTrip {secp : Secp256k1} (hsecp : secp.Inverts) :
    (∀ c : CCoins, c.Storable → ∃ bytes, c.serialize secp = some bytes ∧
      bytes.length = c.getSerializeSize secp ∧ Reads (CCoins.unserialize secp) bytes c) ∧
    ∀ undo : CTxInUndo, undo.Storable →
      (undo.serialize secp).length = undo.getSerializeSize secp ∧
        Reads (CTxInUndo.unserialize secp) (undo.serialize secp) undo :=
  ⟨fun _ h => CCoins.reads_coins hsecp h, fun _ h => CTxInUndo.reads_undo hsecp h⟩

/-- The generator of the curve, uncompressed. -/
def keyG : List UInt8 :=
  [0x04, 0x79, 0xbe, 0x66, 0x7e, 0xf9, 0xdc, 0xbb, 0xac, 0x55, 0xa0, 0x62, 0x95,
   0xce, 0x87, 0x0b, 0x07, 0x02, 0x9b, 0xfc, 0xdb, 0x2d, 0xce, 0x28, 0xd9, 0x59,
   0xf2, 0x81, 0x5b, 0x16, 0xf8, 0x17, 0x98, 0x48, 0x3a, 0xda, 0x77, 0x26, 0xa3,
   0xc4, 0x65, 0x5d, 0xa4, 0xfb, 0xfc, 0x0e, 0x11, 0x08, 0xa8, 0xfd, 0x17, 0xb4,
   0x48, 0xa6, 0x85, 0x54, 0x19, 0x9c, 0x47, 0xd0, 0x8f, 0xfb, 0x10, 0xd4, 0xb8]

/-- Public keys, of which only the generator is known. -/
def secpG : Secp256k1 where
  isFullyValid pubkey := pubkey == keyG
  decompress pubkey := if pubkey = 0x02 :: (keyG.drop 1).take 32 then some keyG else none

theorem secpG_inverts : secpG.Inverts := by
  intro pubkey _ _ hvalid
  obtain rfl : pubkey = keyG := by simpa [secpG] using hvalid
  decide +kernel

/-- Two outputs, the first one spent and the second one paid to the generator. -/
def coinsG : CCoins := ⟨true, [.null, .of 5 ([65] ++ keyG ++ [OP_CHECKSIG])], 7, 1⟩

theorem coinsG_storable : coinsG.Storable where
  canonical := ⟨rfl, by simp [coinsG, CTxOut.of, CTxOut.isNull, CTxOut.null]⟩
  unspent := rfl
  amount := by
    simp only [coinsG, CTxOut.of, CTxOut.isNull, CTxOut.null, List.mem_cons, List.not_mem_nil]
    rintro o (rfl | rfl | h) hnull
    · simp at hnull
    · decide
    · exact absurd h id
  nRounds := by simp [coinsG, CTxOut.of, CTxOut.null]
  height := by decide
  version := by decide

/-- The coins of the generator, whose script is compressed, are read back. -/
theorem format_roundTrip_G : ∃ bytes, coinsG.serialize secpG = some bytes ∧
    bytes.length = coinsG.getSerializeSize secpG ∧ Reads (CCoins.unserialize secpG) bytes coinsG :=
  (format_roundTrip secpG_inverts).1 coinsG coinsG_storable

/-! ### What the format leaves out -/

theorem CCoins.serialize_congr {secp : Secp256k1} {c c' : CCoins}
    (hcoinbase : c.fCoinBase = c'.fCoinBase) (hheight : c.nHeight = c'.nHeight)
    (hversion : c.nVersion = c'.nVersion) (hlen : c.vout.length = c'.vout.length)
    (havail : c.isAvailable = c'.isAvailable)
    (houts : (c.vout.filter fun o => !o.isNull).flatMap (CTxOutCompressor.serialize secp) =
      (c'.vout.filter fun o => !o.isNull).flatMap (CTxOutCompressor.serialize secp)) :
    c.serialize secp = c'.serialize secp := by
  have hused : c.maskUsed = c'.maskUsed := by
    funext b
    rw [maskUsed, havail, ← maskUsed]
  have hsize : c.calcMaskSize = c'.calcMaskSize := by
    rw [calcMaskSize, calcMaskSize, hused, hlen]
  have hcode : c.nCode = c'.nCode := by
    rw [nCode, nCode, hsize, havail, hcoinbase]
  have hbyte : c.maskByte = c'.maskByte := by
    funext b
    rw [maskByte, maskByte, havail]
  rw [serialize, serialize, hsize, hcode, hbyte, havail, houts, hheight, hversion]

theorem reads_unique {α : Type} {r : Reader UInt8 α} {w : List UInt8} {a b : α} (h : Reads r w a)
    (h' : Reads r w b) : a = b :=
  congrArg Prod.fst (Option.some.inj ((h []).symm.trans (h' [])))

def undoWithoutHeight : CTxInUndo := ⟨.of 0 [], false, 0, 1⟩

/-- The coins of the generator after mixing, with rounds counted. -/
def coinsMixed : CCoins := ⟨true, [.null, ⟨5, [65] ++ keyG ++ [OP_CHECKSIG], 0⟩], 7, 1⟩

/-- The coins of the generator, with a script left in the output that is spent. -/
def coinsLeftover : CCoins :=
  ⟨true, [⟨-1, [OP_1], -10⟩, .of 5 ([65] ++ keyG ++ [OP_CHECKSIG])], 7, 1⟩

/-- The version, the rounds and the script are not read back. -/
theorem not_in_format :
    ¬ Reads (CTxInUndo.unserialize secpG) (undoWithoutHeight.serialize secpG) undoWithoutHeight ∧
      (∃ bytes, coinsMixed.serialize secpG = some bytes ∧
        ¬ Reads (CCoins.unserialize secpG) bytes coinsMixed) ∧
      ∃ bytes, coinsLeftover.serialize secpG = some bytes ∧
        ¬ Reads (CCoins.unserialize secpG) bytes coinsLeftover := by
  obtain ⟨bytes, hbytes, -, hread⟩ := CCoins.reads_coins secpG_inverts coinsG_storable
  have hmixed : coinsMixed.serialize secpG = coinsG.serialize secpG :=
    CCoins.serialize_congr rfl rfl rfl rfl (by funext i; rcases i with - | - | i <;> rfl) rfl
  have hleftover : coinsLeftover.serialize secpG = coinsG.serialize secpG :=
    CCoins.serialize_congr rfl rfl rfl rfl (by funext i; rcases i with - | - | i <;> rfl) rfl
  refine ⟨fun h => ?_, ⟨bytes, hmixed.trans hbytes, fun h => ?_⟩,
    ⟨bytes, hleftover.trans hbytes, fun h => ?_⟩⟩
  · have hstorable : CTxInUndo.Storable ⟨.of 0 [], false, 0, 0⟩ :=
      ⟨by decide, rfl, by decide, by decide, .inr rfl⟩
    have hsame := reads_unique h (CTxInUndo.reads_undo secpG_inverts hstorable).2
    simp [undoWithoutHeight] at hsame
  · have hsame := reads_unique h hread
    simp [coinsMixed, coinsG, CTxOut.of] at hsame
  · have hsame := reads_unique h hread
    simp [coinsLeftover, coinsG, CTxOut.of, CTxOut.null] at hsame

end Stonecoin
