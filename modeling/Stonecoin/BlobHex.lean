/-
The bytes of a `uint256`, its hex text and its nibbles (`uint256.h`, `uint256.cpp`).

The text starts with the last byte, and so do the nibbles: nibble `p` is the digit at
position `p` of the text.
-/
import Mathlib.Data.List.Range
import Mathlib.Data.List.TakeWhile
import Mathlib.Data.Nat.Basic
import Mathlib.Data.Int.Basic

namespace Stonecoin.BlobHex

abbrev uint256 := Vector UInt8 32

inductive Fault where
  | outOfRange
  | assertion
  | stale
deriving DecidableEq, Repr

def getNibble (h : uint256) (index : ℤ) : Except Fault ℕ :=
  let index := 63 - index
  -- the division of an `int` rounds towards zero
  let pos := index.tdiv 2
  if pos < 0 then .error .outOfRange
  else
    match h[pos.toNat]? with
    | none => .error .outOfRange
    | some byte => .ok (if index.tmod 2 = 1 then (byte >>> 4).toNat else (byte &&& 0x0F).toNat)

/-- The digits of `"%x"`. -/
def hexChars : List Char := "0123456789abcdef".toList

def hexChar (n : ℕ) : Char := hexChars.getD n '0'

def getHex (h : uint256) : List Char :=
  (List.range 32).flatMap fun i =>
    let byte := (h[32 - i - 1]?.getD 0).toNat
    [hexChar (byte / 16), hexChar (byte % 16)]

def hexDigit (c : Char) : ℤ :=
  if '0' ≤ c ∧ c ≤ '9' then c.toNat - '0'.toNat
  else if 'a' ≤ c ∧ c ≤ 'f' then c.toNat - 'a'.toNat + 10
  else if 'A' ≤ c ∧ c ≤ 'F' then c.toNat - 'A'.toNat + 10
  else -1

def isspace (c : Char) : Bool := c ∈ [' ', '\t', '\n', '\x0b', '\x0c', '\r']

/-- The step over `0x` in front of the digits. -/
def skip0x : List Char → List Char
  | '0' :: c :: rest => if c.toLower = 'x' then rest else '0' :: c :: rest
  | psz => psz

def setHex (psz : List Char) : uint256 :=
  let psz := skip0x (psz.dropWhile isspace)
  -- the digits are read from the last one back
  let digits := ((psz.takeWhile (hexDigit · ≠ -1)).map fun c => (hexDigit c).toNat).reverse
  Vector.ofFn fun i => UInt8.ofNat (digits.getD (2 * i) 0 ||| digits.getD (2 * i + 1) 0 <<< 4)

/-! ### Nibbles -/

/-- The digit at a position. -/
def nibble (h : uint256) (p : ℕ) : ℕ :=
  let byte := (h[31 - p / 2]?.getD 0).toNat
  if p % 2 = 0 then byte / 16 else byte % 16

theorem nibble_lt (h : uint256) (p : ℕ) : nibble h p < 16 := by
  have hbyte := (h[31 - p / 2]?.getD 0).toNat_lt
  rw [nibble]
  split <;> omega

theorem getNibble_eq (h : uint256) {p : ℕ} (hp : p < 64) : getNibble h p = .ok (nibble h p) := by
  have hpos : ((63 : ℤ) - p).tdiv 2 = (31 - p / 2 : ℕ) := by
    rw [Int.tdiv_eq_ediv_of_nonneg (by omega)]
    omega
  have hparity : ((63 : ℤ) - p).tmod 2 = 1 ↔ p % 2 = 0 := by
    rw [Int.tmod_eq_emod_of_nonneg (by omega)]
    omega
  obtain ⟨byte, hbyte⟩ : ∃ byte, h[31 - p / 2]? = some byte :=
    ⟨_, Vector.getElem?_eq_getElem (by omega)⟩
  rw [getNibble, nibble]
  simp only [hpos, hparity, Int.toNat_natCast, hbyte, Option.getD_some]
  rw [if_neg (by omega)]
  have hhigh : (byte >>> 4).toNat = byte.toNat / 16 := by
    rw [UInt8.toNat_shiftRight, Nat.shiftRight_eq_div_pow]
    rfl
  have hlow : (byte &&& 0x0F).toNat = byte.toNat % 16 := by
    rw [UInt8.toNat_and]
    exact Nat.and_two_pow_sub_one_eq_mod byte.toNat 4
  rw [hhigh, hlow]

theorem flatMap_pairs {α : Type*} (g : ℕ → α) (n : ℕ) :
    (List.range n).flatMap (fun i => [g (2 * i), g (2 * i + 1)]) = (List.range (2 * n)).map g := by
  induction n with
  | zero => rfl
  | succ n ih =>
    rw [List.range_succ, List.flatMap_append, ih, Nat.mul_succ, List.range_succ, List.range_succ]
    simp

theorem getHex_eq (h : uint256) : getHex h = (List.range 64).map fun p => hexChar (nibble h p) := by
  rw [show 64 = 2 * 32 from rfl, ← flatMap_pairs, getHex]
  congr 1
  funext i
  have hhigh : nibble h (2 * i) = (h[32 - i - 1]?.getD 0).toNat / 16 := by
    rw [nibble, if_pos (by omega), show 31 - 2 * i / 2 = 32 - i - 1 by omega]
  have hlow : nibble h (2 * i + 1) = (h[32 - i - 1]?.getD 0).toNat % 16 := by
    rw [nibble, if_neg (by omega), show 31 - (2 * i + 1) / 2 = 32 - i - 1 by omega]
  rw [hhigh, hlow]

/-! ### Reading the text -/

theorem hexDigit_hexChar : ∀ n < 16, hexDigit (hexChar n) = n := by decide

theorem hexChar_mem : ∀ n < 16, hexChar n ∈ hexChars := by decide

theorem hexChars_eq : hexChars = (List.range 16).map hexChar := by decide

theorem exists_hexChar {c : Char} (h : c ∈ hexChars) : ∃ n < 16, hexChar n = c := by
  rw [hexChars_eq, List.mem_map] at h
  obtain ⟨n, hn, rfl⟩ := h
  exact ⟨n, List.mem_range.mp hn, rfl⟩

theorem hexChar_read : ∀ n < 16,
    isspace (hexChar n) = false ∧ (hexChar n).toLower ≠ 'x' ∧ hexDigit (hexChar n) ≠ -1 := by
  decide

theorem hexChars_read {c : Char} (h : c ∈ hexChars) :
    isspace c = false ∧ c.toLower ≠ 'x' ∧ hexDigit c ≠ -1 := by
  obtain ⟨n, hn, rfl⟩ := exists_hexChar h
  exact hexChar_read n hn

theorem getD_reverse {l : List ℕ} {k : ℕ} (hk : k < l.length) :
    l.reverse.getD k 0 = l.getD (l.length - 1 - k) 0 := by
  rw [List.getD_eq_getElem?_getD, List.getD_eq_getElem?_getD, List.getElem?_reverse hk]

theorem setHex_eq {cs : List Char} (hcs : ∀ c ∈ cs, c ∈ hexChars) :
    setHex cs = Vector.ofFn fun i =>
      let digits := (cs.map fun c => (hexDigit c).toNat).reverse
      UInt8.ofNat (digits.getD (2 * i) 0 ||| digits.getD (2 * i + 1) 0 <<< 4) := by
  have hdrop : cs.dropWhile isspace = cs := by
    rcases cs with - | ⟨c, cs⟩
    · rfl
    · rw [List.dropWhile_cons, (hexChars_read (hcs c List.mem_cons_self)).1]
      rfl
  have hskip : skip0x cs = cs := by
    rw [skip0x.eq_def]
    split
    next c rest =>
      have hc := hcs c (List.mem_cons_of_mem _ List.mem_cons_self)
      exact if_neg (hexChars_read hc).2.1
    next => rfl
  have htake : cs.takeWhile (hexDigit · ≠ -1) = cs := by
    apply List.takeWhile_eq_self_iff.mpr
    intro c hc
    exact decide_eq_true (hexChars_read (hcs c hc)).2.2
  rw [setHex]
  simp only [hdrop, hskip, htake]

theorem nibble_setHex {cs : List Char} (hlen : cs.length = 64) (hcs : ∀ c ∈ cs, c ∈ hexChars)
    {p : ℕ} (hp : p < 64) :
    nibble (setHex cs) p = (cs.map fun c => (hexDigit c).toNat).getD p 0 := by
  have hlt : ∀ k, (cs.map fun c => (hexDigit c).toNat).getD k 0 < 16 := by
    intro k
    rw [List.getD_eq_getElem?_getD, List.getElem?_map]
    rcases hk : cs[k]? with - | c
    · decide
    · obtain ⟨n, hn, rfl⟩ := exists_hexChar (hcs c (List.mem_of_getElem? hk))
      rw [Option.map_some, Option.getD_some, hexDigit_hexChar n hn]
      exact hn
  rw [setHex_eq hcs, nibble]
  generalize hds : (cs.map fun c => (hexDigit c).toNat) = ds at hlt ⊢
  have hlen' : ds.length = 64 := by rw [← hds, List.length_map, hlen]
  rw [Vector.getElem?_ofFn, dif_pos (by omega), Option.getD_some]
  dsimp only
  rw [getD_reverse (by omega), getD_reverse (by omega), hlen']
  have hofNat : ∀ n < 256, (UInt8.ofNat n).toNat = n := fun n hn => UInt8.toNat_ofNat_of_lt' hn
  -- the two digits of the byte
  have hhigh := hlt (64 - 1 - (2 * (31 - p / 2) + 1))
  have hlow := hlt (64 - 1 - 2 * (31 - p / 2))
  rw [Nat.or_comm, ← Nat.shiftLeft_add_eq_or_of_lt (show _ < 2 ^ 4 from hlow),
    Nat.shiftLeft_eq, hofNat _ (by omega)]
  split
  next =>
    rw [show 64 - 1 - (2 * (31 - p / 2) + 1) = p by omega] at hhigh ⊢
    omega
  next =>
    rw [show 64 - 1 - 2 * (31 - p / 2) = p by omega] at hlow ⊢
    omega

end Stonecoin.BlobHex
