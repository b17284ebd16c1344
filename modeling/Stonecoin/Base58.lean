/-
Base58 text and addresses (`base58.cpp`).

A C string is a list of characters, which ends in front of the first NUL.  The digits of the
buffers are numbers, the most significant one first; their loops run from the last one back.
The hash of the checksum and the prefixes of the network are parameters.
-/
import Stonecoin.BlobHex
import Stonecoin.Streams
import Mathlib.Tactic.NormNum
import Mathlib.Tactic.Ring

namespace Stonecoin.Base58

open BlobHex (isspace)

/-- All alphanumeric characters except for "0", "I", "O", and "l". -/
def pszBase58 : List Char := "123456789ABCDEFGHJKLMNPQRSTUVWXYZabcdefghijkmnopqrstuvwxyz".toList

/-- `assert(carry == 0)` fails. -/
inductive Fault where
  | carry
deriving DecidableEq, Repr

/-- The digits times `factor`, plus a carry, and the carry that is left. -/
def accumulate (factor base carry : ℕ) : List ℕ → ℕ × List ℕ
  | [] => (carry, [])
  | it :: digits =>
    let r := accumulate factor base carry digits
    ((r.1 + factor * it) / base, (r.1 + factor * it) % base :: r.2)

/-- The loop over the characters, with what follows them; `none` is a character that is not one
of the alphabet. -/
def decodeLoop : List Char → List ℕ → Except Fault (Option (List ℕ × List Char))
  | [], b256 => .ok (some (b256, []))
  | ch :: psz, b256 =>
    if isspace ch then .ok (some (b256, ch :: psz))
    else
      match pszBase58.idxOf? ch with
      | none => .ok none
      | some carry =>
        let r := accumulate 58 256 carry b256
        if r.1 ≠ 0 then .error .carry else decodeLoop psz r.2

def decodeBase58 (psz : List Char) : Except Fault (Option (List UInt8)) := do
  let psz := psz.dropWhile isspace
  let zeroes := (psz.takeWhile (· = '1')).length
  let psz := psz.dropWhile (· = '1')
  match ← decodeLoop psz (List.replicate (psz.length * 733 / 1000 + 1) 0) with
  | none => .ok none
  | some (b256, psz) =>
    if psz.dropWhile isspace ≠ [] then .ok none
    else .ok (some (List.replicate zeroes 0 ++ (b256.dropWhile (· = 0)).map UInt8.ofNat))

/-! ### Addresses -/

def decodeBase58Check (hash : List UInt8 → UInt256) (psz : List Char) :
    Except Fault (Option (List UInt8)) := do
  match ← decodeBase58 psz with
  | none => .ok none
  | some vch =>
    if vch.length < 4 then .ok none
    else if (writeHash (hash (vch.take (vch.length - 4)))).take 4 ≠ vch.drop (vch.length - 4) then
      .ok none
    else .ok (some (vch.take (vch.length - 4)))

structure CBase58Data where
  vchVersion : List UInt8
  vchData : List UInt8
deriving DecidableEq, Repr

/-- The prefixes of a network that addresses have, and the hash of the checksum. -/
structure AddressParams where
  hash : List UInt8 → UInt256
  /-- `Base58Prefix(PUBKEY_ADDRESS)` -/
  pubkeyAddress : List UInt8
  /-- `Base58Prefix(SCRIPT_ADDRESS)` -/
  scriptAddress : List UInt8

namespace CBase58Data

def setString (params : AddressParams) (str : List Char) : Except Fault CBase58Data := do
  match ← decodeBase58Check params.hash (str.takeWhile (· ≠ '\x00')) with
  | none => .ok ⟨[], []⟩
  | some vchTemp =>
    if vchTemp.length < 1 then .ok ⟨[], []⟩ else .ok ⟨vchTemp.take 1, vchTemp.drop 1⟩

variable (params : AddressParams) (address : CBase58Data)

def isValid : Bool :=
  address.vchData.length = 20 ∧
    (address.vchVersion = params.pubkeyAddress ∨ address.vchVersion = params.scriptAddress)

def get : CTxDestination :=
  if !address.isValid params then .noDestination
  else if address.vchVersion = params.pubkeyAddress then .keyID (.ofBytes address.vchData)
  else if address.vchVersion = params.scriptAddress then .scriptID (.ofBytes address.vchData)
  else .noDestination

end CBase58Data

/-! ### The carry -/

/-- The number that is written with these digits. -/
def value (base : ℕ) : List ℕ → ℕ
  | [] => 0
  | d :: digits => d * base ^ digits.length + value base digits

theorem value_replicate (base n : ℕ) : value base (List.replicate n 0) = 0 := by
  induction n with
  | zero => rfl
  | succ n ih => simp [List.replicate_succ, value, ih]

theorem accumulate_spec (factor base carry : ℕ) (digits : List ℕ) :
    (accumulate factor base carry digits).2.length = digits.length ∧
      value base (accumulate factor base carry digits).2 +
        (accumulate factor base carry digits).1 * base ^ digits.length =
      factor * value base digits + carry := by
  induction digits with
  | nil => simp [accumulate, value]
  | cons it digits ih =>
    obtain ⟨hlength, hvalue⟩ := ih
    refine ⟨by simp [accumulate, hlength], ?_⟩
    simp only [accumulate, value, hlength, List.length_cons]
    generalize accumulate factor base carry digits = r at hvalue ⊢
    have hdiv := Nat.mod_add_div (r.1 + factor * it) base
    calc (r.1 + factor * it) % base * base ^ digits.length + value base r.2 +
          (r.1 + factor * it) / base * base ^ (digits.length + 1)
        = ((r.1 + factor * it) % base + base * ((r.1 + factor * it) / base)) *
            base ^ digits.length + value base r.2 := by ring
      _ = (value base r.2 + r.1 * base ^ digits.length) +
            factor * it * base ^ digits.length := by
          rw [hdiv]
          ring
      _ = factor * (it * base ^ digits.length + value base digits) + carry := by
          rw [hvalue]
          ring

theorem accumulate_fits {factor base d k : ℕ} {buffer : List ℕ} (hd : d < factor)
    (hvalue : value base buffer < factor ^ k) (hbuffer : factor ^ (k + 1) ≤ base ^ buffer.length) :
    (accumulate factor base d buffer).1 = 0 ∧
      (accumulate factor base d buffer).2.length = buffer.length ∧
      value base (accumulate factor base d buffer).2 = factor * value base buffer + d ∧
      factor * value base buffer + d < factor ^ (k + 1) := by
  obtain ⟨hlength, hsum⟩ := accumulate_spec factor base d buffer
  generalize accumulate factor base d buffer = r at hlength hsum ⊢
  have hnext : factor * value base buffer + d < factor ^ (k + 1) :=
    calc factor * value base buffer + d < factor * value base buffer + factor :=
          Nat.add_lt_add_left hd _
      _ = factor * (value base buffer + 1) := by ring
      _ ≤ factor * factor ^ k := Nat.mul_le_mul_left _ hvalue
      _ = factor ^ (k + 1) := by rw [pow_succ, Nat.mul_comm]
  have hzero : r.1 = 0 := by
    by_contra hne
    have hone : base ^ buffer.length ≤ r.1 * base ^ buffer.length :=
      Nat.le_mul_of_pos_left _ (Nat.pos_of_ne_zero hne)
    omega
  rw [hzero, Nat.zero_mul, Nat.add_zero] at hsum
  exact ⟨hzero, hlength, hsum, hnext⟩

theorem pow_lt_buffer (n : ℕ) : 58 ^ n < 256 ^ (n * 733 / 1000 + 1) := by
  have hratio : 58 ^ 71 < 256 ^ 52 := by norm_num
  have hexp : 52 * n < (n * 733 / 1000 + 1) * 71 := by omega
  apply lt_of_pow_lt_pow_left₀ 71 (Nat.zero_le _)
  calc (58 ^ n) ^ 71 = (58 ^ 71) ^ n := by rw [← pow_mul, ← pow_mul, Nat.mul_comm]
    _ ≤ (256 ^ 52) ^ n := Nat.pow_le_pow_left hratio.le n
    _ = 256 ^ (52 * n) := by rw [← pow_mul]
    _ < 256 ^ ((n * 733 / 1000 + 1) * 71) := Nat.pow_lt_pow_right (by norm_num) hexp
    _ = (256 ^ (n * 733 / 1000 + 1)) ^ 71 := by rw [pow_mul]

theorem idxOf_lt {ch : Char} {carry : ℕ} (h : pszBase58.idxOf? ch = some carry) : carry < 58 := by
  rw [List.idxOf?, List.findIdx?_eq_some_iff_getElem] at h
  exact h.1

theorem decodeLoop_total : ∀ (psz : List Char) (b256 : List ℕ) {k : ℕ},
    value 256 b256 < 58 ^ k → 58 ^ (k + psz.length) ≤ 256 ^ b256.length →
    ∃ r, decodeLoop psz b256 = .ok r
  | [], b256, k, _, _ => ⟨_, rfl⟩
  | ch :: psz, b256, k, hvalue, hbuffer => by
    rw [decodeLoop]
    by_cases hspace : isspace ch = true
    · exact ⟨_, if_pos hspace⟩
    rw [if_neg hspace]
    rcases hidx : pszBase58.idxOf? ch with - | carry
    · exact ⟨none, rfl⟩
    have hfits : 58 ^ (k + 1) ≤ 256 ^ b256.length := by
      refine le_trans (Nat.pow_le_pow_right (by norm_num) ?_) hbuffer
      rw [List.length_cons]
      omega
    obtain ⟨hzero, hlength, hsum, hnext⟩ := accumulate_fits (idxOf_lt hidx) hvalue hfits
    dsimp only
    rw [if_neg (not_not.mpr hzero)]
    refine decodeLoop_total psz _ (k := k + 1) (hsum ▸ hnext) ?_
    rw [hlength]
    rw [List.length_cons, ← Nat.add_assoc, Nat.add_right_comm] at hbuffer
    exact hbuffer

theorem decodeBase58_total (psz : List Char) : ∃ r, decodeBase58 psz = .ok r := by
  rw [decodeBase58]
  set text := (psz.dropWhile isspace).dropWhile (· = '1')
  obtain ⟨r, hr⟩ := decodeLoop_total text
    (List.replicate (text.length * 733 / 1000 + 1) 0) (k := 0)
    (by rw [value_replicate]; norm_num)
    (by rw [Nat.zero_add, List.length_replicate]; exact (pow_lt_buffer _).le)
  rw [hr]
  rcases r with - | ⟨b256, rest⟩
  · exact ⟨none, rfl⟩
  · by_cases hrest : rest.dropWhile isspace ≠ []
    · exact ⟨none, if_pos hrest⟩
    · exact ⟨_, if_neg hrest⟩

theorem setString_total (params : AddressParams) (str : List Char) :
    ∃ address, CBase58Data.setString params str = .ok address := by
  obtain ⟨r, hr⟩ := decodeBase58_total (str.takeWhile (· ≠ '\x00'))
  rw [CBase58Data.setString, decodeBase58Check, hr]
  rcases r with - | vch
  · exact ⟨_, rfl⟩
  · dsimp only [bind, Except.bind]
    by_cases hshort : vch.length < 4
    · exact ⟨⟨[], []⟩, by rw [if_pos hshort]⟩
    rw [if_neg hshort]
    split_ifs
    · exact ⟨_, rfl⟩
    · dsimp only
      split_ifs
      · exact ⟨_, rfl⟩
      · exact ⟨_, rfl⟩

end Stonecoin.Base58
