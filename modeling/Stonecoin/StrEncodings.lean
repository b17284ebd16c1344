/-
Base64 and Base32 (`utilstrencodings.cpp`).

A string is a list of bytes; what is read at its end is NUL, which is in neither alphabet.  The
coders are loops over a state: the mode says how many bits are waiting, and `left` holds them
(when encoding, already where they stand in the next character).  In mode 0 `left` is a stale
value.

  * `canonical`: the two together.
-/
import Stonecoin.Regrouping

namespace Stonecoin.StrEncodings

open Regrouping

def ascii (s : String) : List UInt8 := s.toList.map fun c => UInt8.ofNat c.toNat

/-- The padding character. -/
def equals : UInt8 := UInt8.ofNat '='.toNat

/-! ### Encoding -/

structure Encoding where
  strRet : List UInt8
  mode : ℕ
  left : ℕ
deriving DecidableEq, Repr

def encodeLoop (step : Encoding → ℕ → Encoding) (pch : List UInt8) : Encoding :=
  pch.foldl (fun st enc => step st enc.toNat) ⟨[], 0, 0⟩

def pbase64 (i : ℕ) : UInt8 :=
  (ascii "ABCDEFGHIJKLMNOPQRSTUVWXYZabcdefghijklmnopqrstuvwxyz0123456789+/").getD i 0

def encode64Step (st : Encoding) (enc : ℕ) : Encoding :=
  match st.mode with
  -- we have no bits
  | 0 => ⟨st.strRet ++ [pbase64 (enc >>> 2)], 1, (enc &&& 3) <<< 4⟩
  -- we have two bits
  | 1 => ⟨st.strRet ++ [pbase64 (st.left ||| enc >>> 4)], 2, (enc &&& 15) <<< 2⟩
  -- we have four bits
  | 2 => ⟨st.strRet ++ [pbase64 (st.left ||| enc >>> 6), pbase64 (enc &&& 63)], 0, st.left⟩
  | _ => st

def encodeBase64 (pch : List UInt8) : List UInt8 :=
  let st := encodeLoop encode64Step pch
  if st.mode ≠ 0 then
    st.strRet ++ [pbase64 st.left] ++ [equals] ++ (if st.mode = 1 then [equals] else [])
  else st.strRet

def pbase32 (i : ℕ) : UInt8 := (ascii "abcdefghijklmnopqrstuvwxyz234567").getD i 0

def encode32Step (st : Encoding) (enc : ℕ) : Encoding :=
  match st.mode with
  -- we have no bits
  | 0 => ⟨st.strRet ++ [pbase32 (enc >>> 3)], 1, (enc &&& 7) <<< 2⟩
  -- we have three bits
  | 1 =>
    ⟨st.strRet ++ [pbase32 (st.left ||| enc >>> 6), pbase32 ((enc >>> 1) &&& 31)], 2,
      (enc &&& 1) <<< 4⟩
  -- we have one bit
  | 2 => ⟨st.strRet ++ [pbase32 (st.left ||| enc >>> 4)], 3, (enc &&& 15) <<< 1⟩
  -- we have four bits
  | 3 =>
    ⟨st.strRet ++ [pbase32 (st.left ||| enc >>> 7), pbase32 ((enc >>> 2) &&& 31)], 4,
      (enc &&& 3) <<< 3⟩
  -- we have two bits
  | 4 => ⟨st.strRet ++ [pbase32 (st.left ||| enc >>> 5), pbase32 (enc &&& 31)], 0, st.left⟩
  | _ => st

def nPadding : List ℕ := [0, 6, 4, 3, 1]

def encodeBase32 (pch : List UInt8) : List UInt8 :=
  let st := encodeLoop encode32Step pch
  if st.mode ≠ 0 then
    st.strRet ++ [pbase32 st.left] ++ List.replicate (nPadding.getD st.mode 0) equals
  else st.strRet

/-! ### Decoding -/

structure Decoding where
  vchRet : List UInt8
  mode : ℕ
  left : ℕ
deriving DecidableEq, Repr

/-- The loop over the characters of an alphabet, with what follows them. -/
def decodeLoop (table : List ℤ) (step : Decoding → ℕ → Decoding) :
    List UInt8 → Decoding → Decoding × List UInt8
  | [], st => (st, [])
  | c :: p, st =>
    let dec := table.getD c.toNat (-1)
    if dec = -1 then (st, c :: p) else decodeLoop table step p (step st dec.toNat)

/-- The characters of the padding are not there, or a character of the alphabet follows them. -/
def badPadding (table : List ℤ) (n : ℕ) (p : List UInt8) : Bool :=
  (List.range n).any (fun i => p.getD i 0 ≠ equals) || table.getD (p.getD n 0).toNat (-1) ≠ -1

def decode64_table : List ℤ :=
  [
    -1, -1, -1, -1, -1, -1, -1, -1, -1, -1, -1, -1, -1, -1, -1, -1, -1, -1, -1, -1,
    -1, -1, -1, -1, -1, -1, -1, -1, -1, -1, -1, -1, -1, -1, -1, -1, -1, -1, -1, -1,
    -1, -1, -1, 62, -1, -1, -1, 63, 52, 53, 54, 55, 56, 57, 58, 59, 60, 61, -1, -1,
    -1, -1, -1, -1, -1, 0, 1, 2, 3, 4, 5, 6, 7, 8, 9, 10, 11, 12, 13, 14,
    15, 16, 17, 18, 19, 20, 21, 22, 23, 24, 25, -1, -1, -1, -1, -1, -1, 26, 27, 28,
    29, 30, 31, 32, 33, 34, 35, 36, 37, 38, 39, 40, 41, 42, 43, 44, 45, 46, 47, 48,
    49, 50, 51, -1, -1, -1, -1, -1, -1, -1, -1, -1, -1, -1, -1, -1, -1, -1, -1, -1,
    -1, -1, -1, -1, -1, -1, -1, -1, -1, -1, -1, -1, -1, -1, -1, -1, -1, -1, -1, -1,
    -1, -1, -1, -1, -1, -1, -1, -1, -1, -1, -1, -1, -1, -1, -1, -1, -1, -1, -1, -1,
    -1, -1, -1, -1, -1, -1, -1, -1, -1, -1, -1, -1, -1, -1, -1, -1, -1, -1, -1, -1,
    -1, -1, -1, -1, -1, -1, -1, -1, -1, -1, -1, -1, -1, -1, -1, -1, -1, -1, -1, -1,
    -1, -1, -1, -1, -1, -1, -1, -1, -1, -1, -1, -1, -1, -1, -1, -1, -1, -1, -1, -1,
    -1, -1, -1, -1, -1, -1, -1, -1, -1, -1, -1, -1, -1, -1, -1, -1]

def pushBack (st : Decoding) (x mode left : ℕ) : Decoding := ⟨st.vchRet ++ [UInt8.ofNat x], mode, left⟩

def decode64Step (st : Decoding) (dec : ℕ) : Decoding :=
  match st.mode with
  -- we have no bits and get 6
  | 0 => { st with left := dec, mode := 1 }
  -- we have 6 bits and keep 4
  | 1 => pushBack st (st.left <<< 2 ||| dec >>> 4) 2 (dec &&& 15)
  -- we have 4 bits and get 6, we keep 2
  | 2 => pushBack st (st.left <<< 4 ||| dec >>> 2) 3 (dec &&& 3)
  -- we have 2 bits and get 6
  | 3 => pushBack st (st.left <<< 6 ||| dec) 0 st.left
  | _ => st

def invalid64 (st : Decoding) (p : List UInt8) : Bool :=
  match st.mode with
  | 0 => false
  -- 4n+1 base64 characters processed: impossible
  | 1 => true
  | 2 => st.left ≠ 0 || badPadding decode64_table 2 p
  | 3 => st.left ≠ 0 || badPadding decode64_table 1 p
  | _ => false

def decodeBase64 (p : List UInt8) : List UInt8 × Bool :=
  let r := decodeLoop decode64_table decode64Step p ⟨[], 0, 0⟩
  (r.1.vchRet, invalid64 r.1 r.2)

def decode32_table : List ℤ :=
  [
    -1, -1, -1, -1, -1, -1, -1, -1, -1, -1, -1, -1, -1, -1, -1, -1, -1, -1, -1, -1,
    -1, -1, -1, -1, -1, -1, -1, -1, -1, -1, -1, -1, -1, -1, -1, -1, -1, -1, -1, -1,
    -1, -1, -1, -1, -1, -1, -1, -1, -1, -1, 26, 27, 28, 29, 30, 31, -1, -1, -1, -1,
    -1, -1, -1, -1, -1, 0, 1, 2, 3, 4, 5, 6, 7, 8, 9, 10, 11, 12, 13, 14,
    15, 16, 17, 18, 19, 20, 21, 22, 23, 24, 25, -1, -1, -1, -1, -1, -1, 0, 1, 2,
    3, 4, 5, 6, 7, 8, 9, 10, 11, 12, 13, 14, 15, 16, 17, 18, 19, 20, 21, 22,
    23, 24, 25, -1, -1, -1, -1, -1, -1, -1, -1, -1, -1, -1, -1, -1, -1, -1, -1, -1,
    -1, -1, -1, -1, -1, -1, -1, -1, -1, -1, -1, -1, -1, -1, -1, -1, -1, -1, -1, -1,
    -1, -1, -1, -1, -1, -1, -1, -1, -1, -1, -1, -1, -1, -1, -1, -1, -1, -1, -1, -1,
    -1, -1, -1, -1, -1, -1, -1, -1, -1, -1, -1, -1, -1, -1, -1, -1, -1, -1, -1, -1,
    -1, -1, -1, -1, -1, -1, -1, -1, -1, -1, -1, -1, -1, -1, -1, -1, -1, -1, -1, -1,
    -1, -1, -1, -1, -1, -1, -1, -1, -1, -1, -1, -1, -1, -1, -1, -1, -1, -1, -1, -1,
    -1, -1, -1, -1, -1, -1, -1, -1, -1, -1, -1, -1, -1, -1, -1, -1]

def decode32Step (st : Decoding) (dec : ℕ) : Decoding :=
  match st.mode with
  -- we have no bits and get 5
  | 0 => { st with left := dec, mode := 1 }
  -- we have 5 bits and keep 2
  | 1 => pushBack st (st.left <<< 3 ||| dec >>> 2) 2 (dec &&& 3)
  -- we have 2 bits and keep 7
  | 2 => { st with left := st.left <<< 5 ||| dec, mode := 3 }
  -- we have 7 bits and keep 4
  | 3 => pushBack st (st.left <<< 1 ||| dec >>> 4) 4 (dec &&& 15)
  -- we have 4 bits, and keep 1
  | 4 => pushBack st (st.left <<< 4 ||| dec >>> 1) 5 (dec &&& 1)
  -- we have 1 bit, and keep 6
  | 5 => { st with left := st.left <<< 5 ||| dec, mode := 6 }
  -- we have 6 bits, and keep 3
  | 6 => pushBack st (st.left <<< 2 ||| dec >>> 3) 7 (dec &&& 7)
  -- we have 3 bits, and keep 0
  | 7 => pushBack st (st.left <<< 5 ||| dec) 0 st.left
  | _ => st

def invalid32 (st : Decoding) (p : List UInt8) : Bool :=
  match st.mode with
  | 0 => false
  -- 8n+1, +3, +6 base32 characters processed: impossible
  | 1 | 3 | 6 => true
  | 2 => st.left ≠ 0 || badPadding decode32_table 6 p
  | 4 => st.left ≠ 0 || badPadding decode32_table 4 p
  | 5 => st.left ≠ 0 || badPadding decode32_table 3 p
  | 7 => st.left ≠ 0 || badPadding decode32_table 1 p
  | _ => false

def decodeBase32 (p : List UInt8) : List UInt8 × Bool :=
  let r := decodeLoop decode32_table decode32Step p ⟨[], 0, 0⟩
  (r.1.vchRet, invalid32 r.1 r.2)

/-! ### The alphabets -/

def digitOf (table : List ℤ) (c : UInt8) : Option ℕ :=
  if table.getD c.toNat (-1) = -1 then none else some (table.getD c.toNat (-1)).toNat

def toLower (c : UInt8) : UInt8 := if 65 ≤ c ∧ c ≤ 90 then c + 32 else c

theorem table64 : ∀ n < 256, ∀ d ∈ digitOf decode64_table (UInt8.ofNat n),
    d < 2 ^ 6 ∧ pbase64 d = UInt8.ofNat n := by
  decide +kernel

theorem table32 : ∀ n < 256, ∀ d ∈ digitOf decode32_table (UInt8.ofNat n),
    d < 2 ^ 5 ∧ pbase32 d = toLower (UInt8.ofNat n) := by
  decide +kernel

/-- Base64: four characters of six bits each are a group. -/
def base64 : Codec 6 4 UInt8 where
  char := pbase64
  digit := digitOf decode64_table
  canon := id
  pad := equals
  digit_char := by decide +kernel
  char_digit c d h := by
    have hbyte := table64 c.toNat c.toNat_lt d
    rw [UInt8.ofNat_toNat] at hbyte
    exact hbyte h
  digit_pad := by decide +kernel
  canon_pad := by decide +kernel

/-- Base32: eight characters of five bits each are a group; the case of a letter is free. -/
def base32 : Codec 5 8 UInt8 where
  char := pbase32
  digit := digitOf decode32_table
  canon := toLower
  pad := equals
  digit_char := by decide +kernel
  char_digit c d h := by
    have hbyte := table32 c.toNat c.toNat_lt d
    rw [UInt8.ofNat_toNat] at hbyte
    exact hbyte h
  digit_pad := by decide +kernel
  canon_pad := by decide +kernel

/-! ### What is written -/

/-- Where an encoder stands: the digits of the bytes are written, up to the bits that wait. -/
structure Encoded {w group : ℕ} (C : Codec w group UInt8) (pending : ℕ → ℕ) (bytes : List ℕ)
    (st : Encoding) (ds : List ℕ) (l : ℕ) : Prop where
  regroups : Regroups 8 w bytes ds (pending st.mode) l
  strRet : st.strRet = ds.map C.char
  left : st.mode ≠ 0 → st.left = l <<< (w - pending st.mode)

/-- How many bits wait in a mode of `EncodeBase64`. -/
def encodeBits64 : ℕ → ℕ
  | 1 => 2
  | 2 => 4
  | _ => 0

theorem encode64Step_encoded {bytes : List ℕ} {st : Encoding} {ds : List ℕ} {l : ℕ}
    (h : Encoded base64 encodeBits64 bytes st ds l) (hmode : st.mode < 3) {enc : ℕ}
    (henc : enc < 2 ^ 8) : (encode64Step st enc).mode < 3 ∧
      ∃ ds l, Encoded base64 encodeBits64 (bytes ++ [enc]) (encode64Step st enc) ds l := by
  obtain ⟨strRet, mode, left⟩ := st
  obtain ⟨hregroups, hret, hleft⟩ := h
  dsimp only at hregroups hret hleft hmode
  subst hret
  rcases (by omega : mode = 0 ∨ mode = 1 ∨ mode = 2) with rfl | rfl | rfl
  · obtain rfl : l = 0 := Nat.lt_one_iff.mp hregroups.left_lt
    have hshift := hregroups.shift (m := 2) (k := 6) henc rfl
    rw [Nat.zero_shiftLeft, Nat.zero_or] at hshift
    exact ⟨show 1 < 3 by decide, _, _, hshift, by simp [encode64Step, base64], fun _ => rfl⟩
  · have hleft : left = l <<< 4 := hleft (by decide)
    have hshift := hregroups.shift (m := 4) (k := 4) henc rfl
    rw [← hleft] at hshift
    exact ⟨show 2 < 3 by decide, _, _, hshift, by simp [encode64Step, base64], fun _ => rfl⟩
  · have hleft : left = l <<< 2 := hleft (by decide)
    have hshift := hregroups.shift_emit (v := 6) (j := 0) (k := 2) henc rfl
    rw [← hleft] at hshift
    exact ⟨show 0 < 3 by decide, _, _, hshift, by simp [encode64Step, base64],
      fun hne => absurd rfl hne⟩

/-- How many bits wait in a mode of `EncodeBase32`. -/
def encodeBits32 : ℕ → ℕ
  | 1 => 3
  | 2 => 1
  | 3 => 4
  | 4 => 2
  | _ => 0

theorem encode32Step_encoded {bytes : List ℕ} {st : Encoding} {ds : List ℕ} {l : ℕ}
    (h : Encoded base32 encodeBits32 bytes st ds l) (hmode : st.mode < 5) {enc : ℕ}
    (henc : enc < 2 ^ 8) : (encode32Step st enc).mode < 5 ∧
      ∃ ds l, Encoded base32 encodeBits32 (bytes ++ [enc]) (encode32Step st enc) ds l := by
  obtain ⟨strRet, mode, left⟩ := st
  obtain ⟨hregroups, hret, hleft⟩ := h
  dsimp only at hregroups hret hleft hmode
  subst hret
  rcases (by omega : mode = 0 ∨ mode = 1 ∨ mode = 2 ∨ mode = 3 ∨ mode = 4) with
    rfl | rfl | rfl | rfl | rfl
  · obtain rfl : l = 0 := Nat.lt_one_iff.mp hregroups.left_lt
    have hshift := hregroups.shift (m := 3) (k := 5) henc rfl
    rw [Nat.zero_shiftLeft, Nat.zero_or] at hshift
    exact ⟨show 1 < 5 by decide, _, _, hshift, by simp [encode32Step, base32], fun _ => rfl⟩
  · have hleft : left = l <<< 2 := hleft (by decide)
    have hshift := hregroups.shift_emit (v := 5) (j := 1) (k := 2) henc rfl
    rw [← hleft] at hshift
    exact ⟨show 2 < 5 by decide, _, _, hshift, by simp [encode32Step, base32], fun _ => rfl⟩
  · have hleft : left = l <<< 4 := hleft (by decide)
    have hshift := hregroups.shift (m := 4) (k := 4) henc rfl
    rw [← hleft] at hshift
    exact ⟨show 3 < 5 by decide, _, _, hshift, by simp [encode32Step, base32], fun _ => rfl⟩
  · have hleft : left = l <<< 1 := hleft (by decide)
    have hshift := hregroups.shift_emit (v := 5) (j := 2) (k := 1) henc rfl
    rw [← hleft] at hshift
    exact ⟨show 4 < 5 by decide, _, _, hshift, by simp [encode32Step, base32], fun _ => rfl⟩
  · have hleft : left = l <<< 3 := hleft (by decide)
    have hshift := hregroups.shift_emit (v := 5) (j := 0) (k := 3) henc rfl
    rw [← hleft] at hshift
    exact ⟨show 0 < 5 by decide, _, _, hshift, by simp [encode32Step, base32],
      fun hne => absurd rfl hne⟩

theorem encodeLoop_encoded {w group modes : ℕ} {C : Codec w group UInt8} {pending : ℕ → ℕ}
    {step : Encoding → ℕ → Encoding} (hpos : 0 < modes) (hzero : pending 0 = 0)
    (hstep : ∀ {bytes st ds l}, Encoded C pending bytes st ds l → st.mode < modes →
      ∀ {enc}, enc < 2 ^ 8 → (step st enc).mode < modes ∧
        ∃ ds l, Encoded C pending (bytes ++ [enc]) (step st enc) ds l) (pch : List UInt8) :
    (encodeLoop step pch).mode < modes ∧
      ∃ ds l, Encoded C pending (pch.map UInt8.toNat) (encodeLoop step pch) ds l := by
  unfold encodeLoop
  induction pch using List.reverseRecOn with
  | nil =>
    refine ⟨hpos, [], 0, ?_, rfl, fun hne => absurd rfl hne⟩
    show Regroups 8 w [] [] (pending 0) 0
    rw [hzero]
    exact Regroups.nil
  | append_singleton pch c ih =>
    obtain ⟨hmode, ds, l, h⟩ := ih
    rw [List.foldl_append, List.map_append]
    exact hstep h hmode c.toNat_lt

theorem Encoded.encodes {w group : ℕ} {C : Codec w group UInt8} {pending : ℕ → ℕ}
    {bytes : List ℕ} {st : Encoding} {ds : List ℕ} {l : ℕ} (h : Encoded C pending bytes st ds l)
    (hmode : st.mode ≠ 0) (hpos : 0 < pending st.mode) (hlt : pending st.mode < w) :
    C.Encodes bytes (st.strRet ++ [C.char st.left] ++
      List.replicate (C.padding (ds.length + 1)) C.pad) := by
  refine ⟨_, _, h.regroups.pad hlt.le, by omega, ?_⟩
  rw [Codec.text, List.map_append, List.length_append, h.strRet, h.left hmode]
  rfl

theorem encode64_encodes (x : List UInt8) : base64.Encodes (x.map UInt8.toNat) (encodeBase64 x) := by
  obtain ⟨hmode, ds, l, h⟩ := encodeLoop_encoded (by decide) rfl encode64Step_encoded x
  unfold encodeBase64
  dsimp only
  generalize encodeLoop encode64Step x = st at h hmode
  have hlen := h.regroups.length_eq
  rcases (by omega : st.mode = 0 ∨ st.mode = 1 ∨ st.mode = 2) with hm | hm | hm
  · rw [hm] at hlen
    have hregroups := h.regroups
    rw [hm] at hregroups
    refine ⟨ds, 0, hregroups.back, by decide, ?_⟩
    have hpad : base64.padding ds.length = 0 := by
      show (4 - ds.length % 4) % 4 = 0
      simp only [encodeBits64] at hlen
      omega
    rw [if_neg (not_not.mpr hm), Codec.text, hpad, List.replicate_zero, List.append_nil, h.strRet]
  · rw [hm] at hlen
    have hpad : base64.padding (ds.length + 1) = 2 := by
      show (4 - (ds.length + 1) % 4) % 4 = 2
      simp only [encodeBits64] at hlen
      omega
    have hencodes := h.encodes (by rw [hm]; decide) (by rw [hm]; decide) (by rw [hm]; decide)
    rw [hpad] at hencodes
    rw [if_pos (by rw [hm]; decide), if_pos hm, List.append_assoc]
    exact hencodes
  · rw [hm] at hlen
    have hpad : base64.padding (ds.length + 1) = 1 := by
      show (4 - (ds.length + 1) % 4) % 4 = 1
      simp only [encodeBits64] at hlen
      omega
    have hencodes := h.encodes (by rw [hm]; decide) (by rw [hm]; decide) (by rw [hm]; decide)
    rw [hpad] at hencodes
    rw [if_pos (by rw [hm]; decide), if_neg (by rw [hm]; decide), List.append_nil]
    exact hencodes

theorem encode32_encodes (x : List UInt8) : base32.Encodes (x.map UInt8.toNat) (encodeBase32 x) := by
  obtain ⟨hmode, ds, l, h⟩ := encodeLoop_encoded (by decide) rfl encode32Step_encoded x
  unfold encodeBase32
  dsimp only
  generalize encodeLoop encode32Step x = st at h hmode
  have hlen := h.regroups.length_eq
  by_cases hm : st.mode = 0
  · rw [hm] at hlen
    have hregroups := h.regroups
    rw [hm] at hregroups
    refine ⟨ds, 0, hregroups.back, by decide, ?_⟩
    have hpad : base32.padding ds.length = 0 := by
      show (8 - ds.length % 8) % 8 = 0
      simp only [encodeBits32] at hlen
      omega
    rw [if_neg (not_not.mpr hm), Codec.text, hpad, List.replicate_zero, List.append_nil, h.strRet]
  · -- the table of the padding is that of the missing characters
    have hpad : base32.padding (ds.length + 1) = nPadding.getD st.mode 0 ∧
        0 < encodeBits32 st.mode ∧ encodeBits32 st.mode < 5 := by
      show (8 - (ds.length + 1) % 8) % 8 = nPadding.getD st.mode 0 ∧ _
      rcases (by omega : st.mode = 1 ∨ st.mode = 2 ∨ st.mode = 3 ∨ st.mode = 4) with
        hm | hm | hm | hm
      all_goals
        rw [hm] at hlen ⊢
        simp only [encodeBits32] at hlen
        refine ⟨?_, by decide, by decide⟩
        simp only [nPadding, List.getD_cons_succ, List.getD_cons_zero]
        omega
    have hencodes := h.encodes hm hpad.2.1 hpad.2.2
    rw [hpad.1] at hencodes
    rw [if_pos hm]
    exact hencodes

/-! ### What is read -/

/-- Where a decoder stands: the bytes are those of the digits, up to the bits that are left. -/
def Decoded (w : ℕ) (pending : ℕ → ℕ) (ds : List ℕ) (st : Decoding) : Prop :=
  Regroups w 8 ds (st.vchRet.map UInt8.toNat) (pending st.mode) (if st.mode = 0 then 0 else st.left)

theorem pushBack_decoded {w : ℕ} {pending : ℕ → ℕ} {ds : List ℕ} {st : Decoding} {x mode left n l : ℕ}
    (h : Regroups w 8 ds (st.vchRet.map UInt8.toNat ++ [x]) n l) (hn : pending mode = n)
    (hl : (if mode = 0 then 0 else left) = l) : Decoded w pending ds (pushBack st x mode left) := by
  have hx : x < 2 ^ 8 := h.outs_lt x (by simp)
  have hmap : (pushBack st x mode left).vchRet.map UInt8.toNat =
      st.vchRet.map UInt8.toNat ++ [x] := by
    simp only [pushBack, List.map_append, List.map_cons, List.map_nil, UInt8.toNat_ofNat',
      Nat.mod_eq_of_lt hx]
  unfold Decoded
  rw [hmap]
  show Regroups w 8 ds _ (pending mode) (if mode = 0 then 0 else left)
  rw [hn, hl]
  exact h

/-- How many bits are left in a mode of `DecodeBase64`. -/
def decodeBits64 : ℕ → ℕ
  | 1 => 6
  | 2 => 4
  | 3 => 2
  | _ => 0

theorem decode64Step_decoded {ds : List ℕ} {st : Decoding} (h : Decoded 6 decodeBits64 ds st)
    (hmode : st.mode < 4) {dec : ℕ} (hdec : dec < 2 ^ 6) : (decode64Step st dec).mode < 4 ∧
      Decoded 6 decodeBits64 (ds ++ [dec]) (decode64Step st dec) := by
  obtain ⟨vchRet, mode, left⟩ := st
  dsimp only at hmode
  rcases (by omega : mode = 0 ∨ mode = 1 ∨ mode = 2 ∨ mode = 3) with rfl | rfl | rfl | rfl
  · have hkeep : Regroups 6 8 _ _ _ _ := Regroups.keep h hdec
    rw [if_pos rfl, Nat.zero_shiftLeft, Nat.zero_or] at hkeep
    exact ⟨show 1 < 4 by decide, hkeep⟩
  · have hshift := Regroups.shift (m := 4) (k := 2) h hdec rfl
    exact ⟨show 2 < 4 by decide, pushBack_decoded hshift rfl rfl⟩
  · have hshift := Regroups.shift (m := 2) (k := 4) h hdec rfl
    exact ⟨show 3 < 4 by decide, pushBack_decoded hshift rfl rfl⟩
  · have hshift := Regroups.shift (m := 0) (k := 6) h hdec rfl
    exact ⟨show 0 < 4 by decide, pushBack_decoded hshift rfl (Nat.and_zero dec).symm⟩

/-- How many bits are left in a mode of `DecodeBase32`. -/
def decodeBits32 : ℕ → ℕ
  | 1 => 5
  | 2 => 2
  | 3 => 7
  | 4 => 4
  | 5 => 1
  | 6 => 6
  | 7 => 3
  | _ => 0

theorem decode32Step_decoded {ds : List ℕ} {st : Decoding} (h : Decoded 5 decodeBits32 ds st)
    (hmode : st.mode < 8) {dec : ℕ} (hdec : dec < 2 ^ 5) : (decode32Step st dec).mode < 8 ∧
      Decoded 5 decodeBits32 (ds ++ [dec]) (decode32Step st dec) := by
  obtain ⟨vchRet, mode, left⟩ := st
  dsimp only at hmode
  rcases (by omega : mode = 0 ∨ mode = 1 ∨ mode = 2 ∨ mode = 3 ∨ mode = 4 ∨ mode = 5 ∨ mode = 6 ∨
    mode = 7) with rfl | rfl | rfl | rfl | rfl | rfl | rfl | rfl
  · have hkeep : Regroups 5 8 _ _ _ _ := Regroups.keep h hdec
    rw [if_pos rfl, Nat.zero_shiftLeft, Nat.zero_or] at hkeep
    exact ⟨show 1 < 8 by decide, hkeep⟩
  · have hshift := Regroups.shift (m := 2) (k := 3) h hdec rfl
    exact ⟨show 2 < 8 by decide, pushBack_decoded hshift rfl rfl⟩
  · exact ⟨show 3 < 8 by decide, Regroups.keep h hdec⟩
  · have hshift := Regroups.shift (m := 4) (k := 1) h hdec rfl
    exact ⟨show 4 < 8 by decide, pushBack_decoded hshift rfl rfl⟩
  · have hshift := Regroups.shift (m := 1) (k := 4) h hdec rfl
    exact ⟨show 5 < 8 by decide, pushBack_decoded hshift rfl rfl⟩
  · exact ⟨show 6 < 8 by decide, Regroups.keep h hdec⟩
  · have hshift := Regroups.shift (m := 3) (k := 2) h hdec rfl
    exact ⟨show 7 < 8 by decide, pushBack_decoded hshift rfl rfl⟩
  · have hshift := Regroups.shift (m := 0) (k := 5) h hdec rfl
    exact ⟨show 0 < 8 by decide, pushBack_decoded hshift rfl (Nat.and_zero dec).symm⟩

theorem decodeLoop_decoded {w group modes : ℕ} {C : Codec w group UInt8} {pending : ℕ → ℕ}
    {step : Decoding → ℕ → Decoding} {table : List ℤ} (hdigit : C.digit = digitOf table)
    (hstep : ∀ {ds st}, Decoded w pending ds st → st.mode < modes → ∀ {dec}, dec < 2 ^ w →
      (step st dec).mode < modes ∧ Decoded w pending (ds ++ [dec]) (step st dec)) :
    ∀ (p : List UInt8) {ds : List ℕ} {st : Decoding}, Decoded w pending ds st → st.mode < modes →
      ∃ ds', (C.leading p).map C.digit = ds'.map some ∧
        p = C.leading p ++ (decodeLoop table step p st).2 ∧
          C.Ends (decodeLoop table step p st).2 ∧
            (decodeLoop table step p st).1.mode < modes ∧
              Decoded w pending (ds ++ ds') (decodeLoop table step p st).1 := by
  intro p
  induction p with
  | nil =>
    intro ds st h hmode
    exact ⟨[], rfl, rfl, (fun c hc => by cases hc), hmode, by rwa [List.append_nil]⟩
  | cons c p ih =>
    intro ds st h hmode
    rw [decodeLoop]
    by_cases hc : table.getD c.toNat (-1) = -1
    · have hnone : C.digit c = none := by rw [hdigit, digitOf, if_pos hc]
      have hleading : C.leading (c :: p) = [] := by
        rw [Codec.leading, List.takeWhile_cons, hnone]
        rfl
      rw [if_pos hc, hleading]
      refine ⟨[], rfl, rfl, fun d hd => ?_, hmode, by rwa [List.append_nil]⟩
      rw [← Option.some.inj hd]
      exact hnone
    · have hsome : C.digit c = some (table.getD c.toNat (-1)).toNat := by
        rw [hdigit, digitOf, if_neg hc]
      have hleading : C.leading (c :: p) = c :: C.leading p := by
        rw [Codec.leading, List.takeWhile_cons, hsome]
        rfl
      obtain ⟨hmode', h'⟩ := hstep h hmode (C.char_digit c _ hsome).1
      obtain ⟨ds', hmap, hp, hends, hmode'', h''⟩ := ih h' hmode'
      rw [if_neg hc, hleading]
      refine ⟨(table.getD c.toNat (-1)).toNat :: ds', ?_, ?_, hends, hmode'', ?_⟩
      · rw [List.map_cons, List.map_cons, hmap, hsome]
      · rw [List.cons_append, ← hp]
      · rwa [List.append_assoc] at h''

theorem badPadding_eq_false {w group : ℕ} {C : Codec w group UInt8} {table : List ℤ}
    (hdigit : C.digit = digitOf table) (hpad : C.pad = equals) (hnul : C.digit 0 = none) :
    ∀ {n : ℕ} {p : List UInt8}, badPadding table n p = false ↔
      ∃ rest, p = List.replicate n C.pad ++ rest ∧ C.Ends rest := by
  have hnone : ∀ c : UInt8, table.getD c.toNat (-1) = -1 ↔ C.digit c = none := by
    intro c
    rw [hdigit, digitOf]
    split <;> simp_all
  have hbad : ∀ {n : ℕ} {p : List UInt8}, badPadding table n p = false ↔
      (∀ i < n, p.getD i 0 = equals) ∧ C.digit (p.getD n 0) = none := by
    intro n p
    rw [badPadding, Bool.or_eq_false_iff, ← hnone]
    simp
  intro n
  induction n with
  | zero =>
    intro p
    rw [hbad]
    constructor
    · rintro ⟨-, hend⟩
      refine ⟨p, rfl, fun c hc => ?_⟩
      rcases p with - | ⟨d, p⟩
      · cases hc
      · rw [← Option.some.inj hc]
        exact hend
    · rintro ⟨rest, hp, hends⟩
      obtain rfl : rest = p := hp.symm
      refine ⟨fun i hi => absurd hi (Nat.not_lt_zero i), ?_⟩
      rcases rest with - | ⟨d, rest⟩
      · exact hnul
      · exact hends d rfl
  | succ n ih =>
    intro p
    rw [hbad]
    rcases p with - | ⟨c, p⟩
    · constructor
      · rintro ⟨hall, -⟩
        exact absurd (hall 0 (Nat.succ_pos n)) (by decide)
      · rintro ⟨rest, hp, -⟩
        cases hp
    · have hih := (hbad (n := n) (p := p)).symm.trans ih
      constructor
      · rintro ⟨hall, hend⟩
        obtain ⟨rest, rfl, hends⟩ := hih.mp ⟨fun i hi => hall (i + 1) (Nat.succ_lt_succ hi), hend⟩
        have hc : c = C.pad := (hall 0 (Nat.succ_pos n)).trans hpad.symm
        exact ⟨rest, by rw [hc, List.replicate_succ, List.cons_append], hends⟩
      · rintro ⟨rest, hp, hends⟩
        rw [List.replicate_succ, List.cons_append] at hp
        obtain ⟨rfl, rfl⟩ := List.cons.inj hp
        obtain ⟨hall, hend⟩ := hih.mpr ⟨rest, rfl, hends⟩
        refine ⟨fun i hi => ?_, hend⟩
        cases i with
        | zero => exact hpad
        | succ i => exact hall i (Nat.lt_of_succ_lt_succ hi)

/-- **What the last test has to say**: no digit is missing, no bit is lost, the padding is there. -/
def Complete {w group : ℕ} (C : Codec w group UInt8) (pending : ℕ → ℕ) (ds : List ℕ) (st : Decoding)
    (p : List UInt8) : Prop :=
  pending st.mode < w ∧ (if st.mode = 0 then 0 else st.left) = 0 ∧
    ∃ rest, p = List.replicate (C.padding ds.length) C.pad ++ rest ∧ C.Ends rest

theorem valid_iff {w group : ℕ} (hw : w ≤ 8) {C : Codec w group UInt8} {pending : ℕ → ℕ}
    {ds : List ℕ} {st : Decoding} {s p : List UInt8} {invalid : Bool}
    (h : Decoded w pending ds st) (hlt : pending st.mode < 8)
    (hmap : (C.leading s).map C.digit = ds.map some) (hs : s = C.leading s ++ p)
    (hinvalid : invalid = false ↔ Complete C pending ds st p) (bytes : List UInt8) :
    C.Reads s (bytes.map UInt8.toNat) ↔ st.vchRet = bytes ∧ invalid = false := by
  have hinj : Function.Injective (List.map UInt8.toNat) :=
    List.map_injective_iff.mpr fun a b hab => UInt8.toNat_inj.mp hab
  constructor
  · rintro ⟨ds', k, rest, hds', hk, hmap', hs', hends⟩
    obtain rfl : ds' = ds := List.map_injective_iff.mpr (Option.some_injective ℕ)
      (hmap'.symm.trans hmap)
    obtain ⟨hbytes, hpending, hleft⟩ := Regroups.outs_unique h hds' hlt (by omega)
    refine ⟨hinj hbytes, hinvalid.mpr ⟨by omega, hleft, rest, ?_, hends⟩⟩
    rw [List.append_assoc] at hs'
    exact List.append_cancel_left (hs.symm.trans hs')
  · rintro ⟨rfl, hvalid⟩
    obtain ⟨hk, hleft, rest, hp, hends⟩ := hinvalid.mp hvalid
    refine ⟨ds, pending st.mode, rest, ?_, hk, hmap, ?_, hends⟩
    · unfold Decoded at h
      rwa [hleft] at h
    · rw [List.append_assoc, ← hp]
      exact hs

section

variable {w group : ℕ} {C : Codec w group UInt8} {pending : ℕ → ℕ} {ds : List ℕ}
variable {vchRet : List UInt8} {mode left : ℕ} {p : List UInt8}

theorem complete_iff {table : List ℤ} {n : ℕ} (hdigit : C.digit = digitOf table)
    (hpad : C.pad = equals) (hnul : C.digit 0 = none) (hmode : mode ≠ 0)
    (hlt : pending mode < w) (hpadding : C.padding ds.length = n) :
    (decide (left ≠ 0) || badPadding table n p) = false ↔
      Complete C pending ds ⟨vchRet, mode, left⟩ p := by
  rw [Bool.or_eq_false_iff, badPadding_eq_false hdigit hpad hnul, Complete, if_neg hmode, hpadding]
  constructor
  · rintro ⟨hleft, hrest⟩
    exact ⟨hlt, by simpa using hleft, hrest⟩
  · rintro ⟨-, hleft, hrest⟩
    exact ⟨by simpa using hleft, hrest⟩

theorem complete_zero (hlt : pending 0 < w) (hends : C.Ends p) (hpadding : C.padding ds.length = 0) :
    false = false ↔ Complete C pending ds ⟨vchRet, 0, left⟩ p := by
  refine ⟨fun _ => ⟨hlt, rfl, p, ?_, hends⟩, fun _ => rfl⟩
  rw [hpadding]
  rfl

theorem complete_impossible (hle : ¬ pending mode < w) :
    true = false ↔ Complete C pending ds ⟨vchRet, mode, left⟩ p := by
  constructor
  · intro hfalse
    cases hfalse
  · rintro ⟨hlt, -⟩
    exact absurd hlt hle

end

theorem invalid64_eq_false {ds : List ℕ} {st : Decoding} {p : List UInt8}
    (h : Decoded 6 decodeBits64 ds st) (hmode : st.mode < 4) (hends : base64.Ends p) :
    invalid64 st p = false ↔ Complete base64 decodeBits64 ds st p := by
  have hlen := Regroups.length_eq h
  have hnul : base64.digit 0 = none := by decide +kernel
  have hpadding : base64.padding ds.length = (4 - ds.length % 4) % 4 := rfl
  obtain ⟨vchRet, mode, left⟩ := st
  dsimp only at hmode hlen
  rcases (by omega : mode = 0 ∨ mode = 1 ∨ mode = 2 ∨ mode = 3) with rfl | rfl | rfl | rfl
  all_goals simp only [decodeBits64] at hlen
  · exact complete_zero (by decide) hends (by omega)
  · exact complete_impossible (by decide)
  · exact complete_iff rfl rfl hnul (by decide) (by decide) (by omega)
  · exact complete_iff rfl rfl hnul (by decide) (by decide) (by omega)

theorem invalid32_eq_false {ds : List ℕ} {st : Decoding} {p : List UInt8}
    (h : Decoded 5 decodeBits32 ds st) (hmode : st.mode < 8) (hends : base32.Ends p) :
    invalid32 st p = false ↔ Complete base32 decodeBits32 ds st p := by
  have hlen := Regroups.length_eq h
  have hnul : base32.digit 0 = none := by decide +kernel
  have hpadding : base32.padding ds.length = (8 - ds.length % 8) % 8 := rfl
  obtain ⟨vchRet, mode, left⟩ := st
  dsimp only at hmode hlen
  rcases (by omega : mode = 0 ∨ mode = 2 ∨ mode = 4 ∨ mode = 5 ∨ mode = 7 ∨
    (mode = 1 ∨ mode = 3 ∨ mode = 6)) with rfl | rfl | rfl | rfl | rfl | himpossible
  all_goals simp only [decodeBits32] at hlen
  · exact complete_zero (by decide) hends (by omega)
  · exact complete_iff rfl rfl hnul (by decide) (by decide) (by omega)
  · exact complete_iff rfl rfl hnul (by decide) (by decide) (by omega)
  · exact complete_iff rfl rfl hnul (by decide) (by decide) (by omega)
  · exact complete_iff rfl rfl hnul (by decide) (by decide) (by omega)
  · rcases himpossible with rfl | rfl | rfl
    · exact complete_impossible (by decide)
    · exact complete_impossible (by decide)
    · exact complete_impossible (by decide)

theorem decode64_valid_iff (s bytes : List UInt8) :
    base64.Reads s (bytes.map UInt8.toNat) ↔ decodeBase64 s = (bytes, false) := by
  have hnil : Decoded 6 decodeBits64 [] ⟨[], 0, 0⟩ := Regroups.nil
  obtain ⟨ds, hmap, hs, hends, hmode, h⟩ := decodeLoop_decoded (C := base64) rfl
    decode64Step_decoded s hnil (by decide)
  have hlt : decodeBits64 (decodeLoop decode64_table decode64Step s ⟨[], 0, 0⟩).1.mode < 8 := by
    unfold decodeBits64
    split <;> decide
  rw [valid_iff (by decide) h hlt hmap hs (invalid64_eq_false h hmode hends), decodeBase64,
    Prod.mk.injEq]

theorem decode32_valid_iff (s bytes : List UInt8) :
    base32.Reads s (bytes.map UInt8.toNat) ↔ decodeBase32 s = (bytes, false) := by
  have hnil : Decoded 5 decodeBits32 [] ⟨[], 0, 0⟩ := Regroups.nil
  obtain ⟨ds, hmap, hs, hends, hmode, h⟩ := decodeLoop_decoded (C := base32) rfl
    decode32Step_decoded s hnil (by decide)
  have hlt : decodeBits32 (decodeLoop decode32_table decode32Step s ⟨[], 0, 0⟩).1.mode < 8 := by
    unfold decodeBits32
    split <;> decide
  rw [valid_iff (by decide) h hlt hmap hs (invalid32_eq_false h hmode hends), decodeBase32,
    Prod.mk.injEq]

/-- **What is valid is what encoding writes.**  Both codecs round-trip.  A text that is decoded
without complaint starts with the text that encodes the result, and no character of the alphabet
follows; so two texts without anything behind them that give the same bytes are the same, for
Base32 up to case. -/
theorem canonical :
    (∀ x, decodeBase64 (encodeBase64 x) = (x, false)) ∧
    (∀ x, decodeBase32 (encodeBase32 x) = (x, false)) ∧
    (∀ s, (decodeBase64 s).2 = false → (∃ rest, s = base64.start s ++ rest ∧ base64.Ends rest) ∧
      encodeBase64 (decodeBase64 s).1 = base64.start s) ∧
    (∀ s, (decodeBase32 s).2 = false → (∃ rest, s = base32.start s ++ rest ∧ base32.Ends rest) ∧
      encodeBase32 (decodeBase32 s).1 = (base32.start s).map toLower) ∧
    (∀ s t, (decodeBase64 s).2 = false → (decodeBase64 t).2 = false → s = base64.start s →
      t = base64.start t → (decodeBase64 s).1 = (decodeBase64 t).1 → s = t) ∧
    ∀ s t, (decodeBase32 s).2 = false → (decodeBase32 t).2 = false → s = base32.start s →
      t = base32.start t → (decodeBase32 s).1 = (decodeBase32 t).1 →
        s.map toLower = t.map toLower := by
  have h64 : ∀ s, (decodeBase64 s).2 = false →
      (∃ rest, s = base64.start s ++ rest ∧ base64.Ends rest) ∧
        encodeBase64 (decodeBase64 s).1 = base64.start s := by
    intro s hs
    have hreads := (decode64_valid_iff s (decodeBase64 s).1).mpr (Prod.ext rfl hs)
    obtain ⟨hrest, hencode⟩ := hreads.encodes (encode64_encodes _)
    exact ⟨hrest, hencode.trans (List.map_id _)⟩
  have h32 : ∀ s, (decodeBase32 s).2 = false →
      (∃ rest, s = base32.start s ++ rest ∧ base32.Ends rest) ∧
        encodeBase32 (decodeBase32 s).1 = (base32.start s).map toLower := by
    intro s hs
    have hreads := (decode32_valid_iff s (decodeBase32 s).1).mpr (Prod.ext rfl hs)
    exact hreads.encodes (encode32_encodes _)
  refine ⟨?_, ?_, h64, h32, ?_, ?_⟩
  · intro x
    exact (decode64_valid_iff _ x).mp (encode64_encodes x).reads
  · intro x
    exact (decode32_valid_iff _ x).mp (encode32_encodes x).reads
  · intro s t hs ht hstart hstart' heq
    calc s = base64.start s := hstart
      _ = encodeBase64 (decodeBase64 s).1 := (h64 s hs).2.symm
      _ = encodeBase64 (decodeBase64 t).1 := by rw [heq]
      _ = base64.start t := (h64 t ht).2
      _ = t := hstart'.symm
  · intro s t hs ht hstart hstart' heq
    calc s.map toLower = (base32.start s).map toLower := by rw [← hstart]
      _ = encodeBase32 (decodeBase32 s).1 := (h32 s hs).2.symm
      _ = encodeBase32 (decodeBase32 t).1 := by rw [heq]
      _ = (base32.start t).map toLower := (h32 t ht).2
      _ = t.map toLower := by rw [← hstart']

/-- Capitals are read as well, and trailing text is not. -/
theorem canonical_capitals :
    (∃ rest, ascii "MZXW6YQ= and more" = base32.start (ascii "MZXW6YQ= and more") ++ rest ∧
      base32.Ends rest) ∧
      encodeBase32 (decodeBase32 (ascii "MZXW6YQ= and more")).1 =
        (base32.start (ascii "MZXW6YQ= and more")).map toLower :=
  canonical.2.2.2.1 _ (by decide +kernel)

end Stonecoin.StrEncodings
