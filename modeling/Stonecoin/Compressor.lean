/-
Variable-length numbers (`serialize.h`) and the compact form of an output (`compressor.cpp`).

An amount loses its trailing zeros, and six shapes of a script are written as one number and
the twenty or thirty-two bytes that the shape leaves open.  Everything written is read back,
and nothing behind it is touched (`reads_txOut`): the six numbers are those that a script
written in full does not start with, since its length is written with six added.

The point arithmetic on public keys is a parameter.  What the format needs of it is that a
fully valid key is recovered from its first coordinate and the parity of the second
(`Secp256k1.Inverts`).
-/
import Stonecoin.Readers
import Stonecoin.Transaction
import Mathlib.Data.List.GetD

namespace Stonecoin

open Readers

/-! ### Numbers -/

/-- `tmp[len]` of `WriteVarInt`: seven bits, and a flag on all bytes but the first one
collected. -/
def varIntByte (len : ℕ) (n : ℤ) : UInt8 :=
  UInt8.ofNat ((n % 128).toNat ||| if len = 0 then 0x00 else 0x80)

/-- The bytes that `WriteVarInt` collects, the last one of the stream first; `len` counts the
bytes before. -/
def varIntTmp (len : ℕ) (n : ℤ) : List UInt8 :=
  if n ≤ 0x7F then [varIntByte len n]
  else varIntByte len n :: varIntTmp (len + 1) (n / 128 - 1)
termination_by n.toNat
decreasing_by omega

def writeVarInt (n : ℤ) : List UInt8 := (varIntTmp 0 n).reverse

def getSizeOfVarInt (n : ℤ) : ℕ :=
  if n ≤ 0x7F then 1 else getSizeOfVarInt (n / 128 - 1) + 1
termination_by n.toNat
decreasing_by omega

def readVarIntLoop : ℤ → Reader UInt8 ℤ
  | _, [] => none
  | n, chData :: s =>
    let n := n * 128 + chData.toNat % 128
    if chData.toNat &&& 0x80 ≠ 0 then readVarIntLoop (n + 1) s else some (n, s)

def readVarInt : Reader UInt8 ℤ := readVarIntLoop 0

theorem length_varIntTmp (len : ℕ) (n : ℤ) : (varIntTmp len n).length = getSizeOfVarInt n := by
  fun_induction varIntTmp len n with
  | case1 len n h => rw [getSizeOfVarInt, if_pos h, List.length_singleton]
  | case2 len n h ih => rw [getSizeOfVarInt, if_neg h, List.length_cons, ih]

@[simp] theorem length_writeVarInt (n : ℤ) : (writeVarInt n).length = getSizeOfVarInt n := by
  rw [writeVarInt, List.length_reverse, length_varIntTmp]

theorem varIntByte_parts (len : ℕ) (n : ℤ) :
    ((varIntByte len n).toNat : ℤ) % 128 = n % 128 ∧
      ((varIntByte len n).toNat &&& 0x80 ≠ 0 ↔ len ≠ 0) := by
  have hall : ∀ r < 128, (UInt8.ofNat (r ||| 0x00)).toNat % 128 = r ∧
      (UInt8.ofNat (r ||| 0x00)).toNat &&& 0x80 = 0 ∧
      (UInt8.ofNat (r ||| 0x80)).toNat % 128 = r ∧
      (UInt8.ofNat (r ||| 0x80)).toNat &&& 0x80 ≠ 0 := by decide +kernel
  obtain ⟨hplain, hnoflag, hlow, hflag⟩ := hall (n % 128).toNat (by omega)
  rw [varIntByte]
  split_ifs with hlen
  · refine ⟨by omega, ?_⟩
    simp only [hnoflag, hlen, ne_eq, not_true]
  · refine ⟨by omega, ?_⟩
    simp only [hflag, hlen, ne_eq, not_false_iff]

theorem readVarIntLoop_more {len : ℕ} (hlen : len ≠ 0) (n m : ℤ) (s : List UInt8) :
    readVarIntLoop m (varIntByte len n :: s) = readVarIntLoop (m * 128 + n % 128 + 1) s := by
  obtain ⟨hlow, hflag⟩ := varIntByte_parts len n
  rw [readVarIntLoop, hlow, if_pos (hflag.mpr hlen)]

theorem readVarIntLoop_last (n m : ℤ) (s : List UInt8) :
    readVarIntLoop m (varIntByte 0 n :: s) = some (m * 128 + n % 128, s) := by
  obtain ⟨hlow, hflag⟩ := varIntByte_parts 0 n
  rw [readVarIntLoop, hlow, if_neg (by rw [hflag]; simp)]

theorem readVarIntLoop_prefix {len : ℕ} {n : ℤ} (hlen : len ≠ 0) (hn : 0 ≤ n) (s : List UInt8) :
    readVarIntLoop 0 ((varIntTmp len n).reverse ++ s) = readVarIntLoop (n + 1) s := by
  fun_induction varIntTmp len n generalizing s with
  | case1 len n h =>
    rw [List.reverse_singleton, List.singleton_append, readVarIntLoop_more hlen]
    congr 1
    omega
  | case2 len n h ih =>
    rw [List.reverse_cons, List.append_assoc, ih (by omega) (by omega), List.singleton_append,
      readVarIntLoop_more hlen]
    congr 1
    omega

theorem reads_varInt {n : ℤ} (hn : 0 ≤ n) : Reads readVarInt (writeVarInt n) n := by
  intro s
  rw [readVarInt, writeVarInt, varIntTmp]
  split_ifs with h
  · rw [List.reverse_singleton, List.singleton_append, readVarIntLoop_last]
    congr 2
    omega
  · rw [List.reverse_cons, List.append_assoc, readVarIntLoop_prefix (by omega) (by omega),
      List.singleton_append, readVarIntLoop_last]
    congr 2
    omega

theorem writeVarInt_small {n : ℕ} (h : n < 128) : writeVarInt n = [UInt8.ofNat n] := by
  have hn : ((n : ℤ) % 128).toNat ||| 0 = n := by
    rw [Nat.or_zero]
    omega
  rw [writeVarInt, varIntTmp, if_pos (by omega), varIntByte, if_pos rfl, hn,
    List.reverse_singleton]

/-! ### Amounts -/

/-- The loop of `CompressAmount` that strips zeros, with `left` digits to go. -/
def stripLoop : ℕ → ℕ → ℕ → ℕ × ℕ
  | 0, n, e => (n, e)
  | left + 1, n, e => if n % 10 = 0 then stripLoop left (n / 10) (e + 1) else (n, e)

def compressAmount (n : ℕ) : ℕ :=
  if n = 0 then 0
  else
    let (n, e) := stripLoop 9 n 0
    if e < 9 then 1 + (n / 10 * 9 + n % 10 - 1) * 10 + e else 1 + (n - 1) * 10 + 9

def decompressAmount (x : ℕ) : ℕ :=
  if x = 0 then 0
  else
    let x := x - 1
    let e := x % 10
    let x := x / 10
    let n := if e < 9 then x / 9 * 10 + (x % 9 + 1) else x + 1
    n * 10 ^ e

theorem stripLoop_spec : ∀ (left n e : ℕ), 0 < n →
    0 < (stripLoop left n e).1 ∧ (stripLoop left n e).2 ≤ e + left ∧
      (stripLoop left n e).1 * 10 ^ (stripLoop left n e).2 = n * 10 ^ e ∧
      ((stripLoop left n e).2 < e + left → (stripLoop left n e).1 % 10 ≠ 0)
  | 0, n, e, hn => ⟨hn, le_rfl, rfl, fun h => absurd h (lt_irrefl _)⟩
  | left + 1, n, e, hn => by
    rw [stripLoop]
    split_ifs with hdigit
    · obtain ⟨hpos, hle, hval, hlast⟩ := stripLoop_spec left (n / 10) (e + 1) (by omega)
      refine ⟨hpos, by omega, ?_, fun h => hlast (by omega)⟩
      rw [hval, pow_succ, mul_comm (10 ^ e), ← mul_assoc, Nat.div_mul_cancel (by omega)]
    · exact ⟨hn, by omega, rfl, fun _ => hdigit⟩

theorem decompressAmount_compressAmount (n : ℕ) : decompressAmount (compressAmount n) = n := by
  rcases Nat.eq_zero_or_pos n with rfl | hn
  · rfl
  obtain ⟨hpos, hle, hval, hlast⟩ := stripLoop_spec 9 n 0 hn
  rw [compressAmount, if_neg hn.ne']
  generalize stripLoop 9 n 0 = r at hpos hle hval hlast ⊢
  obtain ⟨m, e⟩ := r
  simp only [pow_zero, mul_one, zero_add] at hpos hle hval hlast ⊢
  split_ifs with he
  · have hdigit := hlast he
    have hcode : 1 + (m / 10 * 9 + m % 10 - 1) * 10 + e - 1 = (m / 10 * 9 + m % 10 - 1) * 10 + e := by
      omega
    have he' : ((m / 10 * 9 + m % 10 - 1) * 10 + e) % 10 = e := by omega
    have hx : ((m / 10 * 9 + m % 10 - 1) * 10 + e) / 10 = m / 10 * 9 + m % 10 - 1 := by omega
    rw [decompressAmount, if_neg (by omega)]
    simp only [hcode, he', hx, he, if_true]
    rw [← hval]
    congr 1
    omega
  · obtain rfl : e = 9 := by omega
    have hcode : 1 + (m - 1) * 10 + 9 - 1 = (m - 1) * 10 + 9 := by omega
    have he' : ((m - 1) * 10 + 9) % 10 = 9 := by omega
    have hx : ((m - 1) * 10 + 9) / 10 = m - 1 := by omega
    rw [decompressAmount, if_neg (by omega)]
    simp only [hcode, he', hx, lt_irrefl, if_false]
    rw [← hval, Nat.sub_add_cancel hpos]

/-! ### Scripts -/

/-- Public keys as far as the compressor asks about them: the test `IsFullyValid` on the bytes
of a key, and `Decompress` on a key of thirty-three bytes. -/
structure Secp256k1 where
  isFullyValid : List UInt8 → Bool
  decompress : List UInt8 → Option (List UInt8)

/-- **Point compression inverts decompression**: a fully valid key is recovered from its first
coordinate and the parity of the second. -/
def Secp256k1.Inverts (secp : Secp256k1) : Prop :=
  ∀ pubkey : List UInt8, pubkey.length = 65 → pubkey.getD 0 0 = 0x04 →
    secp.isFullyValid pubkey = true →
    secp.decompress ((0x02 ||| (pubkey.getD 64 0 &&& 0x01)) :: (pubkey.drop 1).take 32) = some pubkey

namespace CScriptCompressor

variable (secp : Secp256k1)

/-- The number of shapes with a form of their own. -/
def nSpecialScripts : ℕ := 6

def isToKeyID (script : CScript) : Option (List UInt8) :=
  if script.length = 25 ∧ script.getD 0 0 = OP_DUP ∧ script.getD 1 0 = OP_HASH160 ∧
      script.getD 2 0 = 20 ∧ script.getD 23 0 = OP_EQUALVERIFY ∧ script.getD 24 0 = OP_CHECKSIG then
    some ((script.drop 3).take 20)
  else none

def isToScriptID (script : CScript) : Option (List UInt8) :=
  if script.length = 23 ∧ script.getD 0 0 = OP_HASH160 ∧ script.getD 1 0 = 20 ∧
      script.getD 22 0 = OP_EQUAL then
    some ((script.drop 2).take 20)
  else none

def isToPubKey (script : CScript) : Option (List UInt8) :=
  if script.length = 35 ∧ script.getD 0 0 = 33 ∧ script.getD 34 0 = OP_CHECKSIG ∧
      (script.getD 1 0 = 0x02 ∨ script.getD 1 0 = 0x03) then
    some ((script.drop 1).take 33)
  else if script.length = 67 ∧ script.getD 0 0 = 65 ∧ script.getD 66 0 = OP_CHECKSIG ∧
      script.getD 1 0 = 0x04 then
    let pubkey := (script.drop 1).take 65
    if secp.isFullyValid pubkey then some pubkey else none
  else none

def compress (script : CScript) : Option (List UInt8) :=
  match isToKeyID script with
  | some keyID => some (0x00 :: keyID)
  | none =>
    match isToScriptID script with
    | some scriptID => some (0x01 :: scriptID)
    | none =>
      match isToPubKey secp script with
      | some pubkey =>
        if pubkey.getD 0 0 = 0x02 ∨ pubkey.getD 0 0 = 0x03 then
          some (pubkey.getD 0 0 :: (pubkey.drop 1).take 32)
        else if pubkey.getD 0 0 = 0x04 then
          some ((0x04 ||| (pubkey.getD 64 0 &&& 0x01)) :: (pubkey.drop 1).take 32)
        else none
      | none => none

def getSpecialSize (nSize : ℕ) : ℕ :=
  if nSize = 0 ∨ nSize = 1 then 20
  else if nSize = 2 ∨ nSize = 3 ∨ nSize = 4 ∨ nSize = 5 then 32
  else 0

def decompress (nSize : ℕ) (vch : List UInt8) : Option CScript :=
  match nSize with
  | 0x00 => some ([OP_DUP, OP_HASH160, 20] ++ vch ++ [OP_EQUALVERIFY, OP_CHECKSIG])
  | 0x01 => some ([OP_HASH160, 20] ++ vch ++ [OP_EQUAL])
  | 0x02 => some ([33, 0x02] ++ vch ++ [OP_CHECKSIG])
  | 0x03 => some ([33, 0x03] ++ vch ++ [OP_CHECKSIG])
  | 0x04 => (secp.decompress (0x02 :: vch)).map fun pubkey => [65] ++ pubkey ++ [OP_CHECKSIG]
  | 0x05 => (secp.decompress (0x03 :: vch)).map fun pubkey => [65] ++ pubkey ++ [OP_CHECKSIG]
  | _ => none

def getSerializeSize (script : CScript) : ℕ :=
  match compress secp script with
  | some compr => compr.length
  | none => script.length + getSizeOfVarInt (script.length + nSpecialScripts)

def serialize (script : CScript) : List UInt8 :=
  match compress secp script with
  | some compr => compr
  | none => writeVarInt (script.length + nSpecialScripts) ++ script

def unserialize : Reader UInt8 CScript := do
  let nSize := (← readVarInt).toNat
  if nSize < nSpecialScripts then
    let vch ← take (getSpecialSize nSize)
    return (decompress secp nSize vch).getD []
  else take (nSize - nSpecialScripts)

theorem length_serialize (script : CScript) :
    (serialize secp script).length = getSerializeSize secp script := by
  rw [serialize, getSerializeSize]
  cases compress secp script with
  | some compr => rfl
  | none => rw [List.length_append, length_writeVarInt, Nat.add_comm]

/-! ### What a script looks like -/

theorem getD_take {l : List UInt8} {n i : ℕ} (h : i < n) : (l.take n).getD i 0 = l.getD i 0 := by
  rw [List.getD_eq_getElem?_getD, List.getElem?_take, if_pos h, ← List.getD_eq_getElem?_getD]

theorem getD_drop (l : List UInt8) (n i : ℕ) : (l.drop n).getD i 0 = l.getD (n + i) 0 := by
  rw [List.getD_eq_getElem?_getD, List.getElem?_drop, ← List.getD_eq_getElem?_getD]

theorem eq_of_getD {l w : List UInt8} (hlen : l.length = w.length)
    (h : ∀ i < w.length, l.getD i 0 = w.getD i 0) : l = w := by
  refine List.ext_getElem hlen fun i hi hi' => ?_
  have := h i hi'
  rwa [List.getD_eq_getElem _ _ hi, List.getD_eq_getElem _ _ hi'] at this

theorem eq_parts (l : List UInt8) (a b : ℕ) :
    l = l.take a ++ (l.drop a).take b ++ l.drop (a + b) := by
  rw [List.append_assoc, ← List.drop_drop, List.take_append_drop, List.take_append_drop]

theorem eq_of_isToKeyID {script keyID : List UInt8} (h : isToKeyID script = some keyID) :
    keyID.length = 20 ∧ script = [OP_DUP, OP_HASH160, 20] ++ keyID ++ [OP_EQUALVERIFY, OP_CHECKSIG] := by
  rw [isToKeyID] at h
  split_ifs at h with hshape
  obtain ⟨hlen, h0, h1, h2, h23, h24⟩ := hshape
  obtain rfl := Option.some.inj h
  refine ⟨by simp [hlen], ?_⟩
  have hfront : script.take 3 = [OP_DUP, OP_HASH160, 20] := by
    refine eq_of_getD (by simp [hlen]) fun i hi => ?_
    rw [getD_take (show i < 3 from hi)]
    match i, hi with
    | 0, _ => exact h0
    | 1, _ => exact h1
    | 2, _ => exact h2
  have hback : script.drop 23 = [OP_EQUALVERIFY, OP_CHECKSIG] := by
    refine eq_of_getD (by simp [hlen]) fun i hi => ?_
    rw [getD_drop]
    match i, hi with
    | 0, _ => exact h23
    | 1, _ => exact h24
  rw [← hfront, ← hback]
  exact eq_parts script 3 20

theorem eq_of_isToScriptID {script scriptID : List UInt8} (h : isToScriptID script = some scriptID) :
    scriptID.length = 20 ∧ script = [OP_HASH160, 20] ++ scriptID ++ [OP_EQUAL] := by
  rw [isToScriptID] at h
  split_ifs at h with hshape
  obtain ⟨hlen, h0, h1, h22⟩ := hshape
  obtain rfl := Option.some.inj h
  refine ⟨by simp [hlen], ?_⟩
  have hfront : script.take 2 = [OP_HASH160, 20] := by
    refine eq_of_getD (by simp [hlen]) fun i hi => ?_
    rw [getD_take (show i < 2 from hi)]
    match i, hi with
    | 0, _ => exact h0
    | 1, _ => exact h1
  have hback : script.drop 22 = [OP_EQUAL] := by
    refine eq_of_getD (by simp [hlen]) fun i hi => ?_
    rw [getD_drop]
    match i, hi with
    | 0, _ => exact h22
  rw [← hfront, ← hback]
  exact eq_parts script 2 20

theorem eq_push_key {script : List UInt8} {n : ℕ} {size : UInt8} (hlen : script.length = n + 2)
    (h0 : script.getD 0 0 = size) (hlast : script.getD (n + 1) 0 = OP_CHECKSIG) :
    script = [size] ++ (script.drop 1).take n ++ [OP_CHECKSIG] := by
  have hfront : script.take 1 = [size] := by
    refine eq_of_getD (by simp [hlen]) fun i hi => ?_
    rw [getD_take (show i < 1 from hi)]
    match i, hi with
    | 0, _ => exact h0
  have hback : script.drop (1 + n) = [OP_CHECKSIG] := by
    refine eq_of_getD (by simp [hlen]; omega) fun i hi => ?_
    rw [getD_drop, Nat.add_comm 1 n]
    match i, hi with
    | 0, _ => exact hlast
  rw [← hfront, ← hback]
  exact eq_parts script 1 n

theorem eq_cons_take {l : List UInt8} {n : ℕ} (hlen : l.length = n + 1) :
    l = l.getD 0 0 :: (l.drop 1).take n := by
  cases l with
  | nil => simp at hlen
  | cons b l =>
    obtain rfl : l.length = n := by simpa using hlen
    simp

theorem eq_of_isToPubKey {secp : Secp256k1} {script pubkey : List UInt8}
    (h : isToPubKey secp script = some pubkey) :
    (pubkey.length = 33 ∧ (pubkey.getD 0 0 = 0x02 ∨ pubkey.getD 0 0 = 0x03) ∧
        script = [33] ++ pubkey ++ [OP_CHECKSIG]) ∨
      (pubkey.length = 65 ∧ pubkey.getD 0 0 = 0x04 ∧ secp.isFullyValid pubkey = true ∧
        script = [65] ++ pubkey ++ [OP_CHECKSIG]) := by
  rw [isToPubKey] at h
  dsimp only at h
  split_ifs at h with hshort hlong hvalid
  · obtain ⟨hlen, h0, hlast, hkind⟩ := hshort
    obtain rfl := Option.some.inj h
    have hhead : ((script.drop 1).take 33).getD 0 0 = script.getD 1 0 := by
      rw [getD_take (by omega), getD_drop]
    refine .inl ⟨by simp [hlen], ?_, eq_push_key hlen h0 hlast⟩
    rwa [hhead]
  · obtain ⟨hlen, h0, hlast, hkind⟩ := hlong
    obtain rfl := Option.some.inj h
    have hhead : ((script.drop 1).take 65).getD 0 0 = script.getD 1 0 := by
      rw [getD_take (by omega), getD_drop]
    refine .inr ⟨by simp [hlen], ?_, hvalid, eq_push_key hlen h0 hlast⟩
    rwa [hhead]

theorem parity (b : UInt8) : b &&& 0x01 = 0 ∨ b &&& 0x01 = 1 := by
  have hall : ∀ n < 256, UInt8.ofNat n &&& 0x01 = 0 ∨ UInt8.ofNat n &&& 0x01 = 1 := by
    decide +kernel
  have h := hall b.toNat b.toNat_lt
  rwa [UInt8.ofNat_toNat] at h

/-- **The compressed form**: a code below six and as many bytes as its special size, from
which the script is recovered. -/
theorem compress_spec {secp : Secp256k1} (hsecp : secp.Inverts) {script compr : List UInt8}
    (h : compress secp script = some compr) :
    ∃ (code : ℕ) (vch : List UInt8), code < nSpecialScripts ∧ compr = UInt8.ofNat code :: vch ∧
      vch.length = getSpecialSize code ∧ decompress secp code vch = some script := by
  rw [compress] at h
  cases hkey : isToKeyID script with
  | some keyID =>
    rw [hkey] at h
    obtain rfl := Option.some.inj h
    obtain ⟨hlen, hscript⟩ := eq_of_isToKeyID hkey
    exact ⟨0, keyID, by decide, rfl, hlen, by rw [hscript]; rfl⟩
  | none =>
    rw [hkey] at h
    cases hid : isToScriptID script with
    | some scriptID =>
      simp only [hid] at h
      obtain rfl := Option.some.inj h
      obtain ⟨hlen, hscript⟩ := eq_of_isToScriptID hid
      exact ⟨1, scriptID, by decide, rfl, hlen, by rw [hscript]; rfl⟩
    | none =>
      simp only [hid] at h
      cases hpub : isToPubKey secp script with
      | none => simp [hpub] at h
      | some pubkey =>
        simp only [hpub] at h
        rcases eq_of_isToPubKey hpub with ⟨hlen, hkind, hscript⟩ | ⟨hlen, hkind, hvalid, hscript⟩
        · rw [if_pos hkind] at h
          obtain rfl := Option.some.inj h
          have hcons := eq_cons_take hlen
          have hvch : ((pubkey.drop 1).take 32).length = 32 := by simp [hlen]
          rcases hkind with hkind | hkind
          · refine ⟨2, (pubkey.drop 1).take 32, by decide, by rw [hkind]; rfl, hvch, ?_⟩
            rw [hkind] at hcons
            rw [hscript]
            exact congrArg (fun key => some ([33] ++ key ++ [OP_CHECKSIG])) hcons.symm
          · refine ⟨3, (pubkey.drop 1).take 32, by decide, by rw [hkind]; rfl, hvch, ?_⟩
            rw [hkind] at hcons
            rw [hscript]
            exact congrArg (fun key => some ([33] ++ key ++ [OP_CHECKSIG])) hcons.symm
        · rw [if_neg (by rw [hkind]; decide), if_pos hkind] at h
          obtain rfl := Option.some.inj h
          have hinv := hsecp pubkey hlen hkind hvalid
          have hvch : ((pubkey.drop 1).take 32).length = 32 := by simp [hlen]
          rcases parity (pubkey.getD 64 0) with hbit | hbit
          · refine ⟨4, (pubkey.drop 1).take 32, by decide, by rw [hbit]; rfl, hvch, ?_⟩
            rw [hbit] at hinv
            rw [decompress, show (0x02 : UInt8) = 0x02 ||| 0 from rfl, hinv, hscript]
            rfl
          · refine ⟨5, (pubkey.drop 1).take 32, by decide, by rw [hbit]; rfl, hvch, ?_⟩
            rw [hbit] at hinv
            rw [decompress, show (0x03 : UInt8) = 0x02 ||| 1 from rfl, hinv, hscript]
            rfl

theorem reads_script {secp : Secp256k1} (hsecp : secp.Inverts) (script : CScript) :
    Reads (unserialize secp) (serialize secp script) script := by
  rw [serialize]
  cases hcompr : compress secp script with
  | some compr =>
    obtain ⟨code, vch, hcode, rfl, hlen, hscript⟩ := compress_spec hsecp hcompr
    have hsmall : code < 128 := hcode.trans (by decide)
    show Reads _ ([UInt8.ofNat code] ++ vch) script
    rw [← writeVarInt_small hsmall]
    refine (reads_varInt (Int.natCast_nonneg code)).bind ?_
    rw [Int.toNat_natCast, if_pos hcode, ← hlen]
    have hpure : Reads (pure ((decompress secp code vch).getD []) : Reader UInt8 CScript) []
        script := by
      rw [hscript]
      exact .pure script
    have hread : Reads (take vch.length >>= fun vch => pure ((decompress secp code vch).getD []))
        (vch ++ []) script := (Reads.take vch).bind hpure
    rwa [List.append_nil] at hread
  | none =>
    have hsize : (script.length + nSpecialScripts : ℤ) = ((script.length + nSpecialScripts : ℕ) : ℤ) :=
      rfl
    refine (reads_varInt (by omega)).bind ?_
    rw [hsize, Int.toNat_natCast, if_neg (by omega), Nat.add_sub_cancel]
    exact .take script

end CScriptCompressor

/-! ### Outputs -/

section Outputs

variable (secp : Secp256k1)

namespace CTxOutCompressor

/-- Writing a `CTxOutCompressor`.  The amount is converted to an unsigned number first. -/
def serialize (txout : CTxOut) : List UInt8 :=
  writeVarInt (compressAmount (txout.nValue % 2 ^ 64).toNat) ++
    CScriptCompressor.serialize secp txout.scriptPubKey

def getSerializeSize (txout : CTxOut) : ℕ :=
  getSizeOfVarInt (compressAmount (txout.nValue % 2 ^ 64).toNat) +
    CScriptCompressor.getSerializeSize secp txout.scriptPubKey

/-- Reading a `CTxOutCompressor` into a fresh output; `nRounds` is not part of the format. -/
def unserialize : Reader UInt8 CTxOut := do
  let nVal := (← readVarInt).toNat
  let scriptPubKey ← CScriptCompressor.unserialize secp
  return { CTxOut.null with nValue := decompressAmount nVal, scriptPubKey := scriptPubKey }

end CTxOutCompressor

theorem length_serialize_txOut (txout : CTxOut) :
    (CTxOutCompressor.serialize secp txout).length = CTxOutCompressor.getSerializeSize secp txout := by
  rw [CTxOutCompressor.serialize, List.length_append, length_writeVarInt,
    CScriptCompressor.length_serialize]
  rfl

variable {secp}

theorem reads_txOut (hsecp : secp.Inverts) {txout : CTxOut} (h0 : 0 ≤ txout.nValue)
    (hmax : txout.nValue ≤ MAX_MONEY) :
    Reads (CTxOutCompressor.unserialize secp) (CTxOutCompressor.serialize secp txout)
      { txout with nRounds := CTxOut.null.nRounds } := by
  have hvalue : ((txout.nValue % 2 ^ 64).toNat : ℤ) = txout.nValue := by
    have hcap : MAX_MONEY < 2 ^ 64 := by decide
    omega
  rw [CTxOutCompressor.serialize, ← List.append_nil (CScriptCompressor.serialize secp _)]
  refine (reads_varInt (Int.natCast_nonneg _)).bind ((CScriptCompressor.reads_script hsecp _).bind ?_)
  rw [Int.toNat_natCast, decompressAmount_compressAmount, hvalue]
  exact .pure _

end Outputs

end Stonecoin
