/-
Base58 text and the bytes it stands for (`base58.cpp`: `EncodeBase58`, `DecodeBase58` and their
`Check` forms).

Both directions change the base of a number in place.  `absorb` is that loop without its assertion;
it is the number that counts, and in front of it every leading zero is kept as it is.

  * `base58_roundTrip`: they undo each other, and no assertion about a carry
        fails.

The leading zeros are counted in an `int`: `counted` has no outcome when that overflows.
-/
import Stonecoin.Base58
import Mathlib.Data.List.DropRight
import Mathlib.Data.Nat.Digits.Lemmas

namespace Stonecoin.Base58

open BlobHex (isspace)

/-! ### The functions -/

/-- A character of the alphabet. -/
def base58Char (digit : ℕ) : Char := pszBase58.getD digit '1'

def encodeLoop : List UInt8 → List ℕ → Except Fault (List ℕ)
  | [], b58 => .ok b58
  | ch :: p, b58 =>
    let r := accumulate 256 58 ch.toNat b58
    if r.1 ≠ 0 then .error .carry else encodeLoop p r.2

def encodeBase58 (vch : List UInt8) : Except Fault (List Char) := do
  let zeroes := (vch.takeWhile (· = 0)).length
  let p := vch.dropWhile (· = 0)
  let b58 ← encodeLoop p (List.replicate (p.length * 138 / 100 + 1) 0)
  .ok (List.replicate zeroes '1' ++ (b58.dropWhile (· = 0)).map base58Char)

/-- The outcome, unless the `int` that counts the zeroes overflows. -/
def counted {α : Type} (zeroes : ℕ) (r : Except Fault α) : Option (Except Fault α) :=
  if zeroes < 2 ^ 31 then some r else none

def zeroesOf (vch : List UInt8) : ℕ := (vch.takeWhile (· = 0)).length

/-- The ones in front of a text, behind its white space. -/
def onesOf (psz : List Char) : ℕ := ((psz.dropWhile isspace).takeWhile (· = '1')).length

def EncodeBase58 (vch : List UInt8) : Option (Except Fault (List Char)) :=
  counted (zeroesOf vch) (encodeBase58 vch)

def DecodeBase58 (psz : List Char) : Option (Except Fault (Option (List UInt8))) :=
  counted (onesOf psz) (decodeBase58 psz)

def EncodeBase58Check (hash : List UInt8 → UInt256) (vchIn : List UInt8) :
    Option (Except Fault (List Char)) :=
  EncodeBase58 (vchIn ++ (writeHash (hash vchIn)).take 4)

def DecodeBase58Check (hash : List UInt8 → UInt256) (psz : List Char) :
    Option (Except Fault (Option (List UInt8))) :=
  counted (onesOf psz) (decodeBase58Check hash psz)

/-- A text without the white space around it. -/
def trimmed (psz : List Char) : List Char := (psz.dropWhile isspace).rdropWhile isspace

/-! ### Digits -/

theorem value_eq_ofDigits (base : ℕ) (digits : List ℕ) :
    value base digits = Nat.ofDigits base digits.reverse := by
  induction digits with
  | nil => rfl
  | cons d digits ih =>
    rw [value, ih, List.reverse_cons, Nat.ofDigits_append, Nat.ofDigits_singleton,
      List.length_reverse, Nat.mul_comm d, Nat.add_comm]

/-- The digits of a number, the most significant one first. -/
def digitsOf (base n : ℕ) : List ℕ := (Nat.digits base n).reverse

theorem value_digitsOf (base n : ℕ) : value base (digitsOf base n) = n := by
  rw [value_eq_ofDigits, digitsOf, List.reverse_reverse, Nat.ofDigits_digits]

variable {base n : ℕ}

theorem digitsOf_lt {d : ℕ} (hbase : 1 < base) (hd : d ∈ digitsOf base n) : d < base :=
  Nat.digits_lt_base hbase (List.mem_reverse.mp hd)

theorem value_dropWhile (base : ℕ) (digits : List ℕ) :
    value base (digits.dropWhile (· = 0)) = value base digits := by
  induction digits with
  | nil => rfl
  | cons d digits ih =>
    by_cases hd : d = 0
    · rw [List.dropWhile_cons_of_pos (by simp [hd]), ih, value, hd, Nat.zero_mul, Nat.zero_add]
    · rw [List.dropWhile_cons_of_neg (by simp [hd])]

variable {digits : List ℕ}

theorem digitsOf_value (hbase : 1 < base)
    (hlt : ∀ d ∈ digits, d < base) (hhead : digits.head? ≠ some 0) :
    digitsOf base (value base digits) = digits := by
  rw [digitsOf, value_eq_ofDigits, Nat.digits_ofDigits base hbase, List.reverse_reverse]
  · exact fun d hd => hlt d (List.mem_reverse.mp hd)
  · intro hne hlast
    rw [List.getLast_reverse] at hlast
    exact hhead (by rw [List.head?_eq_some_head (by simpa using hne), hlast])

variable {α : Type}

theorem head_dropWhile_ne (p : α → Bool) (l : List α) {a : α} (ha : p a = true) :
    (l.dropWhile p).head? ≠ some a := by
  intro h
  have hnot := List.head?_dropWhile_not p l
  rw [h] at hnot
  exact absurd ha (by simpa using hnot)

theorem dropWhile_eq_digitsOf (hbase : 1 < base)
    (hlt : ∀ d ∈ digits, d < base) :
    digits.dropWhile (· = 0) = digitsOf base (value base digits) := by
  rw [← value_dropWhile, digitsOf_value hbase]
  · exact fun d hd => hlt d ((List.dropWhile_sublist _).subset hd)
  · exact head_dropWhile_ne _ digits (by simp)

/-! ### The change of the base -/

/-- The buffer after some digits, whatever carry is left. -/
def absorb (factor base : ℕ) (digits buffer : List ℕ) : List ℕ :=
  digits.foldl (fun b d => (accumulate factor base d b).2) buffer

def Fits (factor base : ℕ) (buffer digits : List ℕ) : Prop :=
  (∀ d ∈ digits, d < factor) ∧
    ∃ k, value base buffer < factor ^ k ∧ factor ^ (k + digits.length) ≤ base ^ buffer.length

variable {factor : ℕ}

theorem Fits.next {d : ℕ} {buffer : List ℕ}
    (h : Fits factor base buffer (d :: digits)) :
    (accumulate factor base d buffer).1 = 0 ∧
      Fits factor base (accumulate factor base d buffer).2 digits ∧
      value base (accumulate factor base d buffer).2 = factor * value base buffer + d := by
  obtain ⟨hlt, k, hvalue, hbuffer⟩ := h
  rw [List.forall_mem_cons] at hlt
  rw [List.length_cons, ← Nat.add_assoc, Nat.add_right_comm] at hbuffer
  have hpos : 0 < factor := Nat.lt_of_le_of_lt (Nat.zero_le d) hlt.1
  have hone : factor ^ (k + 1) ≤ base ^ buffer.length :=
    (Nat.pow_le_pow_right hpos (Nat.le_add_right _ _)).trans hbuffer
  obtain ⟨hzero, hlength, hsum, hnext⟩ := accumulate_fits hlt.1 hvalue hone
  exact ⟨hzero, ⟨hlt.2, k + 1, hsum ▸ hnext, hlength.symm ▸ hbuffer⟩, hsum⟩

theorem value_absorb {buffer : List ℕ}
    (h : Fits factor base buffer digits) : value base (absorb factor base digits buffer) =
      value base buffer * factor ^ digits.length + value factor digits := by
  induction digits generalizing buffer with
  | nil =>
    rw [List.length_nil, pow_zero, Nat.mul_one]
    rfl
  | cons d digits ih =>
    obtain ⟨-, hfits, hsum⟩ := h.next
    show value base (absorb factor base digits (accumulate factor base d buffer).2) = _
    rw [ih hfits, hsum, value, List.length_cons]
    ring

theorem absorb_lt (hbase : 0 < base) {buffer : List ℕ}
    (hbuffer : ∀ d ∈ buffer, d < base) : ∀ d ∈ absorb factor base digits buffer, d < base := by
  have hstep : ∀ (carry : ℕ) (b : List ℕ), ∀ d ∈ (accumulate factor base carry b).2, d < base := by
    intro carry b
    induction b with
    | nil => exact fun d hd => absurd hd (by simp [accumulate])
    | cons it b ih =>
      intro d hd
      rcases List.mem_cons.mp hd with rfl | hd
      · exact Nat.mod_lt _ hbase
      · exact ih d hd
  induction digits generalizing buffer with
  | nil => exact hbuffer
  | cons d digits ih => exact ih (hstep d buffer)

theorem dropWhile_absorb (hbase : 1 < base)
    (hlt : ∀ d ∈ digits, d < factor) (hbuffer : factor ^ digits.length ≤ base ^ n) :
    (absorb factor base digits (List.replicate n 0)).dropWhile (· = 0) =
      digitsOf base (value factor digits) := by
  have hfits : Fits factor base (List.replicate n 0) digits :=
    ⟨hlt, 0, by rw [value_replicate, pow_zero]; exact one_pos,
      by rwa [Nat.zero_add, List.length_replicate]⟩
  have hzeros : ∀ d ∈ List.replicate n 0, d < base := fun d hd =>
    (List.eq_of_mem_replicate hd).symm ▸ Nat.zero_lt_of_lt hbase
  rw [dropWhile_eq_digitsOf hbase (absorb_lt (Nat.zero_lt_of_lt hbase) hzeros),
    value_absorb hfits, value_replicate, Nat.zero_mul, Nat.zero_add]

theorem pow_le_text (n : ℕ) : 256 ^ n ≤ 58 ^ (n * 138 / 100 + 1) := by
  have hratio : 256 ^ 50 < 58 ^ 69 := by norm_num
  have hexp : 69 * n ≤ (n * 138 / 100 + 1) * 50 := by omega
  apply le_of_pow_le_pow_left₀ (n := 50) (by norm_num) (Nat.zero_le _)
  calc (256 ^ n) ^ 50 = (256 ^ 50) ^ n := by rw [← pow_mul, ← pow_mul, Nat.mul_comm]
    _ ≤ (58 ^ 69) ^ n := Nat.pow_le_pow_left hratio.le n
    _ = 58 ^ (69 * n) := by rw [← pow_mul]
    _ ≤ 58 ^ ((n * 138 / 100 + 1) * 50) := Nat.pow_le_pow_right (by norm_num) hexp
    _ = (58 ^ (n * 138 / 100 + 1)) ^ 50 := by rw [pow_mul]

/-! ### From bytes to text -/

theorem encodeLoop_eq {p : List UInt8} {b58 : List ℕ}
    (h : Fits 256 58 b58 (p.map UInt8.toNat)) :
    encodeLoop p b58 = .ok (absorb 256 58 (p.map UInt8.toNat) b58) := by
  induction p generalizing b58 with
  | nil => rfl
  | cons ch p ih =>
    obtain ⟨hzero, hfits, -⟩ := Fits.next h
    rw [encodeLoop, if_neg (not_not_intro hzero), ih hfits]
    rfl

theorem value_bytes_dropWhile (vch : List UInt8) :
    value 256 ((vch.dropWhile (· = 0)).map UInt8.toNat) = value 256 (vch.map UInt8.toNat) := by
  induction vch with
  | nil => rfl
  | cons b vch ih =>
    by_cases hb : b = 0
    · rw [List.dropWhile_cons_of_pos (by simp [hb]), ih, List.map_cons, value, hb]
      simp
    · rw [List.dropWhile_cons_of_neg (by simp [hb])]

theorem encodeBase58_eq (vch : List UInt8) :
    encodeBase58 vch = .ok (List.replicate (zeroesOf vch) '1' ++
      (digitsOf 58 (value 256 (vch.map UInt8.toNat))).map base58Char) := by
  have hlt : ∀ d ∈ (vch.dropWhile (· = 0)).map UInt8.toNat, d < 256 := by
    intro d hd
    obtain ⟨b, -, rfl⟩ := List.mem_map.mp hd
    exact b.toNat_lt
  have hbuffer := pow_le_text (vch.dropWhile (· = 0)).length
  have hfits : Fits 256 58 (List.replicate ((vch.dropWhile (· = 0)).length * 138 / 100 + 1) 0)
      ((vch.dropWhile (· = 0)).map UInt8.toNat) := by
    refine ⟨hlt, 0, ?_, ?_⟩
    · rw [value_replicate]
      exact one_pos
    · rwa [Nat.zero_add, List.length_map, List.length_replicate]
  rw [encodeBase58, encodeLoop_eq hfits]
  show Except.ok _ = _
  rw [dropWhile_absorb (by norm_num) hlt (by rwa [List.length_map]), value_bytes_dropWhile]
  rfl

/-! ### From text to bytes -/

theorem idxOf_base58Char : ∀ d < 58, pszBase58.idxOf? (base58Char d) = some d := by
  decide +kernel

theorem base58Char_idxOf {ch : Char} {d : ℕ} (h : pszBase58.idxOf? ch = some d) :
    base58Char d = ch := by
  rw [List.idxOf?, List.findIdx?_eq_some_iff_getElem] at h
  obtain ⟨hlt, hch, -⟩ := h
  rw [base58Char, List.getD_eq_getElem _ _ hlt]
  exact eq_of_beq hch

theorem isspace_base58Char : ∀ d < 58, isspace (base58Char d) = false := by
  decide +kernel

theorem base58Char_ne_one : ∀ d < 58, d ≠ 0 → base58Char d ≠ '1' := by
  decide +kernel

def Ends (rest : List Char) : Prop := ∀ ch ∈ rest.head?, isspace ch = true

variable {rest : List Char}

theorem decodeLoop_eq {b256 : List ℕ}
    (h : Fits 58 256 b256 digits) (hrest : Ends rest) :
    decodeLoop (digits.map base58Char ++ rest) b256 =
      .ok (some (absorb 58 256 digits b256, rest)) := by
  induction digits generalizing b256 with
  | nil =>
    cases rest with
    | nil => rfl
    | cons ch rest =>
      show decodeLoop (ch :: rest) b256 = _
      rw [decodeLoop, if_pos (hrest ch rfl)]
      rfl
  | cons d digits ih =>
    obtain ⟨hzero, hfits, -⟩ := Fits.next h
    have hd : d < 58 := h.1 d List.mem_cons_self
    rw [List.map_cons, List.cons_append, decodeLoop,
      if_neg (by rw [isspace_base58Char d hd]; decide), idxOf_base58Char d hd]
    dsimp only
    rw [if_neg (not_not_intro hzero), ih hfits]
    rfl

variable {psz : List Char}

theorem decodeLoop_some {b256 b : List ℕ}
    (h : decodeLoop psz b256 = .ok (some (b, rest))) :
    ∃ digits : List ℕ, (∀ d ∈ digits, d < 58) ∧ psz = digits.map base58Char ++ rest ∧ Ends rest := by
  induction psz generalizing b256 with
  | nil =>
    obtain ⟨-, rfl⟩ := Prod.mk.inj (Option.some.inj (Except.ok.inj h))
    exact ⟨[], by simp, rfl, fun ch hch => absurd hch (by simp)⟩
  | cons ch psz ih =>
    rw [decodeLoop] at h
    by_cases hspace : isspace ch = true
    · rw [if_pos hspace] at h
      obtain ⟨-, rfl⟩ := Prod.mk.inj (Option.some.inj (Except.ok.inj h))
      refine ⟨[], by simp, rfl, fun ch' hch' => ?_⟩
      obtain rfl := Option.some.inj hch'
      exact hspace
    rw [if_neg hspace] at h
    rcases hidx : pszBase58.idxOf? ch with - | d
    · rw [hidx] at h
      exact absurd h (by simp)
    rw [hidx] at h
    dsimp only at h
    split at h
    next => exact absurd h (by simp)
    next =>
      obtain ⟨digits, hlt, rfl, hrest⟩ := ih h
      refine ⟨d :: digits, List.forall_mem_cons.mpr ⟨idxOf_lt hidx, hlt⟩, ?_, hrest⟩
      rw [List.map_cons, base58Char_idxOf hidx, List.cons_append]

/-- The text, without the white space around it, is some ones and then some digits. -/
structure Spells (psz : List Char) (zeroes : ℕ) (digits : List ℕ) : Prop where
  lt : ∀ d ∈ digits, d < 58
  head : digits.head? ≠ some 0
  text : trimmed psz = List.replicate zeroes '1' ++ digits.map base58Char

theorem span_replicate [DecidableEq α] (a : α) (n : ℕ) {w : List α}
    (hw : w.head? ≠ some a) :
    (List.replicate n a ++ w).takeWhile (· = a) = List.replicate n a ∧
      (List.replicate n a ++ w).dropWhile (· = a) = w := by
  have hall : ∀ b ∈ List.replicate n a, decide (b = a) = true := fun b hb =>
    decide_eq_true (List.eq_of_mem_replicate hb)
  rw [List.takeWhile_append_of_pos hall, List.dropWhile_append_of_pos hall]
  cases w with
  | nil => simp
  | cons b w =>
    have hb : b ≠ a := fun h => hw (by rw [h]; rfl)
    rw [List.takeWhile_cons_of_neg (by simp [hb]), List.dropWhile_cons_of_neg (by simp [hb]),
      List.append_nil]
    exact ⟨rfl, rfl⟩

theorem head_digits_ne (hlt : ∀ d ∈ digits, d < 58)
    (hhead : digits.head? ≠ some 0) (hrest : Ends rest) :
    (digits.map base58Char ++ rest).head? ≠ some '1' := by
  cases digits with
  | nil => exact fun h => absurd (hrest '1' h) (by decide)
  | cons d digits =>
    intro h
    refine base58Char_ne_one d (hlt d List.mem_cons_self) (fun hzero => hhead ?_)
      (Option.some.inj h)
    rw [hzero]
    rfl

theorem ends_of_forall (h : ∀ ch ∈ rest, isspace ch = true) : Ends rest :=
  fun ch hch => h ch (List.mem_of_mem_head? hch)

theorem dropWhile_eq_trimmed (psz : List Char) : ∃ rest, psz.dropWhile isspace =
    trimmed psz ++ rest ∧ ∀ ch ∈ rest, isspace ch = true :=
  ⟨_, List.rdropWhile_append_rtakeWhile.symm, fun _ hch =>
    List.mem_rtakeWhile_imp hch⟩

theorem Spells.ones {zeroes : ℕ}
    (h : Spells psz zeroes digits) : onesOf psz = zeroes := by
  obtain ⟨rest, hpsz, hrest⟩ := dropWhile_eq_trimmed psz
  rw [h.text, List.append_assoc] at hpsz
  have hhead := head_digits_ne h.lt h.head (ends_of_forall hrest)
  rw [onesOf, hpsz, (span_replicate '1' zeroes hhead).1, List.length_replicate]

theorem Spells.decode {zeroes : ℕ}
    (h : Spells psz zeroes digits) : decodeBase58 psz = .ok (some (List.replicate zeroes 0 ++
      (digitsOf 256 (value 58 digits)).map UInt8.ofNat)) := by
  obtain ⟨rest, hpsz, hrest⟩ := dropWhile_eq_trimmed psz
  rw [h.text, List.append_assoc] at hpsz
  obtain ⟨htake, hdrop⟩ :=
    span_replicate '1' zeroes (head_digits_ne h.lt h.head (ends_of_forall hrest))
  obtain ⟨n, hn⟩ : ∃ n, n = (digits.map base58Char ++ rest).length := ⟨_, rfl⟩
  have hlen : digits.length ≤ n := by
    rw [hn, List.length_append, List.length_map]
    exact Nat.le_add_right _ _
  have hbuffer : 58 ^ digits.length ≤ 256 ^ (n * 733 / 1000 + 1) :=
    (Nat.pow_le_pow_right (by norm_num) hlen).trans (pow_lt_buffer n).le
  have hfits : Fits 58 256 (List.replicate (n * 733 / 1000 + 1) 0) digits := by
    refine ⟨h.lt, 0, ?_, ?_⟩
    · rw [value_replicate]
      exact one_pos
    · rwa [Nat.zero_add, List.length_replicate]
  have hspaces : rest.dropWhile isspace = [] := List.dropWhile_eq_nil_iff.mpr hrest
  rw [decodeBase58, hpsz, htake, hdrop, ← hn, decodeLoop_eq hfits (ends_of_forall hrest)]
  show (if rest.dropWhile isspace ≠ [] then _ else _) = _
  rw [if_neg (not_not_intro hspaces), List.length_replicate,
    dropWhile_absorb (by norm_num) h.lt hbuffer]

theorem not_space (zeroes : ℕ) (hlt : ∀ d ∈ digits, d < 58) :
    ∀ ch ∈ List.replicate zeroes '1' ++ digits.map base58Char, isspace ch = false := by
  intro ch hch
  rcases List.mem_append.mp hch with hch | hch
  · rw [List.eq_of_mem_replicate hch]
    decide
  · obtain ⟨d, hd, rfl⟩ := List.mem_map.mp hch
    exact isspace_base58Char d (hlt d hd)

theorem rdropWhile_spaces {w : List Char} (rest : List Char) (hw : ∀ ch ∈ w, isspace ch = false)
    (hrest : ∀ ch ∈ rest, isspace ch = true) : (w ++ rest).rdropWhile isspace = w := by
  rw [List.rdropWhile, List.reverse_append,
    List.dropWhile_append_of_pos fun ch hch => hrest ch (List.mem_reverse.mp hch)]
  refine List.rdropWhile_eq_self_iff.mpr fun hne hlast => ?_
  exact absurd ((hw _ (List.getLast_mem hne)).symm.trans hlast) (by decide)

theorem exists_spells {vch : List UInt8}
    (h : decodeBase58 psz = .ok (some vch)) : ∃ zeroes digits, Spells psz zeroes digits := by
  rw [decodeBase58] at h
  obtain ⟨text, htext⟩ : ∃ text, text = (psz.dropWhile isspace).dropWhile (· = '1') := ⟨_, rfl⟩
  rw [← htext] at h
  rcases hloop : decodeLoop text (List.replicate (text.length * 733 / 1000 + 1) 0) with
    fault | - | ⟨b, rest⟩
  · rw [hloop] at h
    exact absurd h (by simp [bind, Except.bind])
  · rw [hloop] at h
    exact absurd h (by simp [bind, Except.bind])
  · rw [hloop] at h
    have hspaces : rest.dropWhile isspace = [] := by
      by_contra hne
      exact absurd ((if_pos hne).symm.trans h) (by simp)
    have hrest := List.dropWhile_eq_nil_iff.mp hspaces
    obtain ⟨digits, hlt, hdigits, hends⟩ := decodeLoop_some hloop
    have hones : (psz.dropWhile isspace).takeWhile (· = '1') =
        List.replicate (onesOf psz) '1' :=
      List.eq_replicate_iff.mpr ⟨rfl, fun ch hch => by simpa using List.mem_takeWhile_imp hch⟩
    refine ⟨onesOf psz, digits, hlt, ?_, ?_⟩
    · -- the ones have been taken away
      intro hzero
      have hone : text.head? ≠ some '1' := htext ▸ head_dropWhile_ne _ _ (by decide)
      refine hone ?_
      obtain ⟨tail, rfl⟩ := List.head?_eq_some_iff.mp hzero
      rw [hdigits]
      rfl
    · rw [trimmed, ← List.takeWhile_append_dropWhile (p := (· = '1')) (l := psz.dropWhile isspace),
        hones, ← htext, hdigits, ← List.append_assoc]
      exact rdropWhile_spaces rest (not_space _ hlt) hrest

theorem decodeBase58_iff (psz : List Char) (vch : List UInt8) :
    decodeBase58 psz = .ok (some vch) ↔ ∃ zeroes digits, Spells psz zeroes digits ∧
      vch = List.replicate zeroes 0 ++ (digitsOf 256 (value 58 digits)).map UInt8.ofNat := by
  constructor
  · intro h
    obtain ⟨zeroes, digits, hspells⟩ := exists_spells h
    exact ⟨zeroes, digits, hspells, Option.some.inj (Except.ok.inj (h.symm.trans hspells.decode))⟩
  · rintro ⟨zeroes, digits, h, rfl⟩
    exact h.decode

/-! ### Round trips -/

theorem digitsOf_head (base n : ℕ) : (digitsOf base n).head? ≠ some 0 := by
  rw [digitsOf, List.head?_reverse]
  rcases Nat.eq_zero_or_pos n with rfl | hpos
  · simp
  · rw [List.getLast?_eq_some_getLast (Nat.digits_ne_nil_iff_ne_zero.mpr hpos.ne')]
    exact fun h => Nat.getLast_digit_ne_zero base hpos.ne' (Option.some.inj h)

theorem map_ofNat_toNat (vch : List UInt8) : (vch.map UInt8.toNat).map UInt8.ofNat = vch := by
  rw [List.map_map]
  exact (List.map_congr_left fun b _ => UInt8.ofNat_toNat).trans (List.map_id vch)

theorem map_toNat_ofNat (hlt : ∀ d ∈ digits, d < 256) :
    (digits.map UInt8.ofNat).map UInt8.toNat = digits := by
  rw [List.map_map]
  exact (List.map_congr_left fun d hd => UInt8.toNat_ofNat_of_lt (hlt d hd)).trans (List.map_id _)

theorem dropWhile_bytes (vch : List UInt8) :
    vch.dropWhile (· = 0) = (digitsOf 256 (value 256 (vch.map UInt8.toNat))).map UInt8.ofNat := by
  have hlt : ∀ d ∈ vch.map UInt8.toNat, d < 256 := by
    intro d hd
    obtain ⟨b, -, rfl⟩ := List.mem_map.mp hd
    exact b.toNat_lt
  have hzero : (fun b : UInt8 => decide (b = 0)) = (fun d : ℕ => decide (d = 0)) ∘ UInt8.toNat := by
    funext b
    simp [← UInt8.toNat_inj]
  rw [← dropWhile_eq_digitsOf (by norm_num) hlt, List.dropWhile_map, map_ofNat_toNat, hzero]

theorem spells_encode (vch : List UInt8) :
    Spells (List.replicate (zeroesOf vch) '1' ++
        (digitsOf 58 (value 256 (vch.map UInt8.toNat))).map base58Char) (zeroesOf vch)
      (digitsOf 58 (value 256 (vch.map UInt8.toNat))) := by
  have hlt : ∀ d ∈ digitsOf 58 (value 256 (vch.map UInt8.toNat)), d < 58 := fun d hd =>
    digitsOf_lt (by norm_num) hd
  refine ⟨hlt, digitsOf_head _ _, ?_⟩
  have hspace := not_space (zeroesOf vch) hlt
  generalize List.replicate (zeroesOf vch) '1' ++ _ = w at hspace ⊢
  have hdrop : w.dropWhile isspace = w :=
    List.dropWhile_eq_self_iff.mpr fun hpos => by simpa using hspace _ (List.getElem_mem hpos)
  have hback := rdropWhile_spaces [] hspace (by simp)
  rw [trimmed, hdrop]
  rwa [List.append_nil] at hback

theorem decode_encode {vch : List UInt8} (h : encodeBase58 vch = .ok psz) :
    decodeBase58 psz = .ok (some vch) ∧ onesOf psz = zeroesOf vch ∧ trimmed psz = psz := by
  obtain rfl := Except.ok.inj ((encodeBase58_eq vch).symm.trans h)
  have hspells := spells_encode vch
  refine ⟨?_, hspells.ones, hspells.text⟩
  have hzeros : vch.takeWhile (· = 0) = List.replicate (zeroesOf vch) 0 :=
    List.eq_replicate_iff.mpr ⟨rfl, fun b hb => by simpa using List.mem_takeWhile_imp hb⟩
  rw [hspells.decode, value_digitsOf, ← dropWhile_bytes, ← hzeros, List.takeWhile_append_dropWhile]

theorem value_zeros (base n : ℕ) (digits : List ℕ) :
    value base (List.replicate n 0 ++ digits) = value base digits := by
  induction n with
  | zero => rfl
  | succ n ih => rw [List.replicate_succ, List.cons_append, value, ih, Nat.zero_mul, Nat.zero_add]

theorem encode_decode {vch : List UInt8}
    (h : decodeBase58 psz = .ok (some vch)) :
    encodeBase58 vch = .ok (trimmed psz) ∧ zeroesOf vch = onesOf psz := by
  obtain ⟨zeroes, digits, hspells, rfl⟩ := (decodeBase58_iff psz vch).mp h
  have hlt : ∀ d ∈ digitsOf 256 (value 58 digits), d < 256 := fun d hd =>
    digitsOf_lt (by norm_num) hd
  have hzeroes : zeroesOf (List.replicate zeroes 0 ++
      (digitsOf 256 (value 58 digits)).map UInt8.ofNat) = zeroes := by
    have hhead : ((digitsOf 256 (value 58 digits)).map UInt8.ofNat).head? ≠ some 0 := by
      rw [List.head?_map]
      intro hsome
      obtain ⟨d, hd, hzero⟩ := Option.map_eq_some_iff.mp hsome
      have hlt' := hlt d (List.mem_of_mem_head? hd)
      have hback : (UInt8.ofNat d).toNat = d := UInt8.toNat_ofNat_of_lt hlt'
      have hd0 : d = 0 := by
        rw [← hback, hzero]
        rfl
      exact digitsOf_head _ _ (hd0 ▸ hd)
    rw [zeroesOf, (span_replicate 0 zeroes hhead).1, List.length_replicate]
  refine ⟨?_, hzeroes.trans hspells.ones.symm⟩
  rw [encodeBase58_eq, hzeroes, List.map_append, map_toNat_ofNat hlt, List.map_replicate,
    show UInt8.toNat 0 = 0 from rfl, value_zeros, value_digitsOf,
    digitsOf_value (by norm_num) hspells.lt hspells.head, hspells.text]

theorem counted_of_lt (h : n < 2 ^ 31) (r : Except Fault α) :
    counted n r = some r :=
  if_pos h

theorem counted_eq_some {r r' : Except Fault α} :
    counted n r = some r' ↔ n < 2 ^ 31 ∧ r = r' := by
  by_cases h : n < 2 ^ 31
  · rw [counted_of_lt h, Option.some_inj, and_iff_right h]
  · rw [counted, if_neg h]
    exact iff_of_false (by simp) fun hr => h hr.1

/-! ### The checksum -/

theorem decodeBase58Check_iff (hash : List UInt8 → UInt256) (psz : List Char)
    (vchRet : List UInt8) : decodeBase58Check hash psz = .ok (some vchRet) ↔
      decodeBase58 psz = .ok (some (vchRet ++ (writeHash (hash vchRet)).take 4)) := by
  have hfour : ∀ h : UInt256, ((writeHash h).take 4).length = 4 := by
    intro h
    rw [writeHash, List.length_take, length_writeLE]
    rfl
  obtain ⟨r, hr⟩ := decodeBase58_total psz
  rw [decodeBase58Check, hr]
  rcases r with - | vch
  · exact iff_of_false (by simp [bind, Except.bind]) (by simp)
  show (if vch.length < 4 then _ else _) = _ ↔ _
  rw [Except.ok.injEq, Option.some_inj]
  by_cases hshort : vch.length < 4
  · rw [if_pos hshort]
    refine iff_of_false (by simp) ?_
    rintro rfl
    rw [List.length_append, hfour] at hshort
    omega
  rw [if_neg hshort]
  constructor
  · intro h
    by_cases hsum : (writeHash (hash (vch.take (vch.length - 4)))).take 4 ≠
      vch.drop (vch.length - 4)
    · exact absurd ((if_pos hsum).symm.trans h) (by simp)
    · obtain rfl := Option.some.inj (Except.ok.inj ((if_neg hsum).symm.trans h))
      rw [not_not.mp hsum, List.take_append_drop]
  · rintro rfl
    have hlen : (vchRet ++ (writeHash (hash vchRet)).take 4).length - 4 = vchRet.length := by
      rw [List.length_append, hfour]
      omega
    rw [hlen, List.take_left, List.drop_left, if_neg (not_not_intro rfl)]

/-- **Base58.**  Bytes are read back from their text, and a text that is accepted is written again
without its white space, as long as the leading zeros can be counted.  No assertion about a carry
fails, whatever the length.  With a checksum, exactly the texts of some bytes and their checksum
are accepted. -/
theorem base58_roundTrip (hash : List UInt8 → UInt256) :
    (∀ vch, zeroesOf vch < 2 ^ 31 →
      ∃ psz, EncodeBase58 vch = some (.ok psz) ∧ DecodeBase58 psz = some (.ok (some vch))) ∧
    (∀ psz, onesOf psz < 2 ^ 31 → DecodeBase58 psz = some (.ok none) ∨
      ∃ vch, DecodeBase58 psz = some (.ok (some vch)) ∧
        EncodeBase58 vch = some (.ok (trimmed psz))) ∧
    (∀ vch, ∃ psz, encodeBase58 vch = .ok psz) ∧ (∀ psz, ∃ r, decodeBase58 psz = .ok r) ∧
    ∀ psz vchRet, DecodeBase58Check hash psz = some (.ok (some vchRet)) ↔
      EncodeBase58Check hash vchRet = some (.ok (trimmed psz)) := by
  refine ⟨fun vch hzeroes => ?_, fun psz hones => ?_, fun vch => ⟨_, encodeBase58_eq vch⟩,
    decodeBase58_total, fun psz vchRet => ?_⟩
  · obtain ⟨hdecode, hones, -⟩ := decode_encode (encodeBase58_eq vch)
    refine ⟨_, (counted_of_lt hzeroes _).trans (congrArg some (encodeBase58_eq vch)), ?_⟩
    rw [DecodeBase58, hdecode, hones]
    exact counted_of_lt hzeroes _
  · obtain ⟨r, hr⟩ := decodeBase58_total psz
    rw [DecodeBase58, counted_of_lt hones, hr]
    rcases r with - | vch
    · exact .inl rfl
    · obtain ⟨hencode, hzeroes⟩ := encode_decode hr
      refine .inr ⟨vch, rfl, ?_⟩
      rw [EncodeBase58, hencode, hzeroes]
      exact counted_of_lt hones _
  · rw [DecodeBase58Check, EncodeBase58Check, EncodeBase58, counted_eq_some, counted_eq_some,
      decodeBase58Check_iff]
    constructor
    · rintro ⟨hones, hdecode⟩
      obtain ⟨hencode, hzeroes⟩ := encode_decode hdecode
      exact ⟨hzeroes ▸ hones, hencode⟩
    · rintro ⟨hzeroes, hencode⟩
      -- the white space around the text makes no difference
      obtain ⟨hdecode, hones, htrimmed⟩ := decode_encode hencode
      obtain ⟨zeroes, digits, hspells, hbytes⟩ := (decodeBase58_iff _ _).mp hdecode
      have hspells' : Spells psz zeroes digits :=
        ⟨hspells.lt, hspells.head, htrimmed.symm.trans hspells.text⟩
      refine ⟨?_, (decodeBase58_iff _ _).mpr ⟨zeroes, digits, hspells', hbytes⟩⟩
      rwa [hspells'.ones, ← hspells.ones, hones]

/-- Two zeros and two more bytes. -/
theorem base58_roundTrip_zeros : ∃ psz, EncodeBase58 [0, 0, 1, 255] = some (.ok psz) ∧
    DecodeBase58 psz = some (.ok (some [0, 0, 1, 255])) :=
  (base58_roundTrip fun _ => 0).1 [0, 0, 1, 255] (by decide)

/-- **`2 ^ 31` zeros** cannot be counted. -/
theorem zeros_overflow : EncodeBase58 (List.replicate (2 ^ 31) 0) = none := by
  suffices hall : ∀ n : ℕ, n = 2 ^ 31 → EncodeBase58 (List.replicate n 0) = none from hall _ rfl
  intro n hn
  have hcount : zeroesOf (List.replicate n 0) = n := by
    have hspan := (span_replicate (0 : UInt8) n (w := []) (by simp)).1
    rw [List.append_nil] at hspan
    rw [zeroesOf, hspan, List.length_replicate]
  rw [EncodeBase58, counted, hcount, if_neg (by omega)]

end Stonecoin.Base58
