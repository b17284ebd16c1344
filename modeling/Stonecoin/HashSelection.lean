/-
The choice of the hash functions of the proof of work (`hashSelection.cpp`) and the rounds
that apply them (`trihash.cpp`).

Strings are lists of characters, and every access to one may be out of range.  A slot of
`hash` that no round has written is `none`; reading it would be reading the zeros of its
constructor.

  * `hash_rounds`: the whole of it, for every previous hash.
-/
import Stonecoin.BlobHex
import Mathlib.Data.List.Perm.Basic
import Mathlib.Tactic.IntervalCases

namespace Stonecoin.HashSelection

open BlobHex

/-! ### Strings -/

def substr (s : List Char) (pos len : ℕ) : Except Fault (List Char) :=
  if s.length < pos then .error .outOfRange else .ok ((s.drop pos).take len)

def charAt (s : List Char) (i : ℤ) : Except Fault Char :=
  if i < 0 then .error .outOfRange else (s[i.toNat]?).elim (.error .outOfRange) .ok

def insert (s : List Char) (pos : ℕ) (c : Char) : Except Fault (List Char) :=
  if s.length < pos then .error .outOfRange else .ok (s.take pos ++ c :: s.drop pos)

def erase (s : List Char) (pos : ℤ) (len : ℕ) : Except Fault (List Char) :=
  if pos < 0 ∨ (s.length : ℤ) < pos then .error .outOfRange
  else .ok (s.take pos.toNat ++ s.drop (pos.toNat + len))

/-- `find`, whose `npos` is -1 as an `int`. -/
def find (s : List Char) (c : Char) : ℤ := (s.findIdx? (· = c)).elim (-1) fun i => i

/-! ### The source -/

def ALGOS_HASHES : List String :=
  ["Blake", "Bmw", "Groestl", "Jh", "Keccak", "Skein", "Luffa", "Cube", "Shavite", "Simd",
    "Echo", "Hamsi", "Fugue", "Shabal", "Whirl", "Sha", "Haval"]

/-- One pass of the loops of `scrambleHash`: the character at the offset that a digit gives
moves to the front. -/
def moveToFront (list digits order : List Char) (i : ℕ) : Except Fault (List Char) := do
  let offset := find list (← charAt digits i)
  let order ← insert order 0 (← charAt order offset)
  erase order (offset + 1) 1

/-- One of the two characters that come on top. -/
def repeatInFront (list digits order : List Char) (i : ℕ) : Except Fault (List Char) := do
  let offset := find list (← charAt digits i)
  insert order 0 (← charAt order offset)

def scrambleHash (blockHash : uint256) : Except Fault uint256 := do
  let hashString := getHex blockHash
  let list := "0123456789abcdef".toList
  let hashFront ← substr hashString 0 30
  -- the second argument is a length, so these two reach further than they are used
  let sixteen2 ← substr hashString 30 46
  let sixteen ← substr hashString 46 62
  let last2 ← substr hashString 62 64
  let order ← (List.range 16).foldlM (moveToFront list sixteen) list
  let order2 ← (List.range 16).foldlM (moveToFront list sixteen2) list
  let order2 ← repeatInFront list last2 order2 0
  let order2 ← repeatInFront list last2 order2 1
  .ok (setHex (hashFront ++ order2 ++ order))

def isScrambleHash (blockHash : uint256) : Except Fault Bool := do
  let last35Nibble ← getNibble blockHash 29
  .ok (last35Nibble % 2 = 0)

def getSelection (blockHash : uint256) (index : ℤ) : Except Fault ℕ :=
  if ¬ 0 ≤ index then .error .assertion
  else if ¬ index < 17 then .error .assertion
  else do
    let hashSelection ← getNibble blockHash (47 + index)
    let additionalSelection ← getNibble blockHash (30 + index)
    .ok (hashSelection + additionalSelection % 2)

def selectingHash (hash : uint256) : Except Fault uint256 := do
  if ← isScrambleHash hash then scrambleHash hash else .ok hash

def getHashSelectionsString (hash : uint256) : Except Fault String := do
  let blockHash ← selectingHash hash
  (List.range 17).foldlM (fun hashSelections i => do
    let hashSelected ← getSelection blockHash i
    (ALGOS_HASHES[hashSelected]?).elim (.error .outOfRange) fun name =>
      .ok (hashSelections ++ name)) ""

abbrev uint512 := Vector UInt8 64

structure SphHashes where
  blake512 : List UInt8 → uint512
  bmw512 : List UInt8 → uint512
  groestl512 : List UInt8 → uint512
  jh512 : List UInt8 → uint512
  keccak512 : List UInt8 → uint512
  skein512 : List UInt8 → uint512
  luffa512 : List UInt8 → uint512
  cubehash512 : List UInt8 → uint512
  shavite512 : List UInt8 → uint512
  simd512 : List UInt8 → uint512
  echo512 : List UInt8 → uint512
  hamsi512 : List UInt8 → uint512
  fugue512 : List UInt8 → uint512
  shabal512 : List UInt8 → uint512
  whirlpool : List UInt8 → uint512
  sha512 : List UInt8 → uint512
  haval256_5 : List UInt8 → uint256

/-- The `switch` of `TriHash::hash`: what a case writes to a slot, which has been filled with
zeros by its constructor.  Other values write nothing. -/
def switch (sph : SphHashes) (hashSelection : ℕ) (toHash : List UInt8) : Option uint512 :=
  match hashSelection with
  | 0 => some (sph.blake512 toHash)
  | 1 => some (sph.bmw512 toHash)
  | 2 => some (sph.groestl512 toHash)
  | 3 => some (sph.jh512 toHash)
  | 4 => some (sph.keccak512 toHash)
  | 5 => some (sph.skein512 toHash)
  | 6 => some (sph.luffa512 toHash)
  | 7 => some (sph.cubehash512 toHash)
  | 8 => some (sph.shavite512 toHash)
  | 9 => some (sph.simd512 toHash)
  | 10 => some (sph.echo512 toHash)
  | 11 => some (sph.hamsi512 toHash)
  | 12 => some (sph.fugue512 toHash)
  | 13 => some (sph.shabal512 toHash)
  | 14 => some (sph.whirlpool toHash)
  | 15 => some (sph.sha512 toHash)
  -- this one writes 32 bytes, and 32 zeros stay
  | 16 => some (sph.haval256_5 toHash ++ Vector.replicate 32 (0 : UInt8))
  | _ => none

def toHash (input : List UInt8) (hash : List (Option uint512)) (i : ℕ) :
    Except Fault (List UInt8) :=
  if i = 0 then .ok input
  else (hash[i - 1]?.join).elim (.error .stale) fun bytes => .ok bytes.toList

def round (sph : SphHashes) (blockHash : uint256) (input : List UInt8)
    (hash : List (Option uint512)) (i : ℕ) : Except Fault (List (Option uint512)) := do
  let bytes ← toHash input hash i
  let hashSelection ← getSelection blockHash i
  .ok ((switch sph hashSelection bytes).elim hash fun out => hash.set i (some out))

/-- `TriHash::hash`, for the bytes of a header. -/
def hash (sph : SphHashes) (PrevBlockHash : uint256) (input : List UInt8) :
    Except Fault uint256 := do
  let blockHash ← selectingHash PrevBlockHash
  let hash ← (List.range 17).foldlM (round sph blockHash input) (List.replicate 17 none)
  -- `hash[16].trim256()`
  (hash[16]?.join).elim (.error .stale) fun bytes => .ok (bytes.take 32)

/-! ### One step -/

theorem ok_bind {α β : Type} (a : α) (f : α → Except Fault β) : (Except.ok a >>= f) = f a := rfl

theorem foldlM_ok {α β : Type} {f : β → α → Except Fault β} (P : β → Prop) :
    ∀ {l : List α} {b : β}, (∀ a ∈ l, ∀ b, P b → ∃ b', f b a = .ok b' ∧ P b') → P b →
      ∃ b', l.foldlM f b = .ok b' ∧ P b' := by
  intro l
  induction l with
  | nil => exact fun _ hb => ⟨_, rfl, hb⟩
  | cons a l ih =>
    intro b hstep hb
    obtain ⟨b₁, hb₁, hP⟩ := hstep a List.mem_cons_self b hb
    obtain ⟨b', hb', hP'⟩ := ih (fun x hx => hstep x (List.mem_cons_of_mem _ hx)) hP
    refine ⟨b', ?_, hP'⟩
    rw [List.foldlM_cons, hb₁]
    exact hb'

theorem find_digit {c : Char} (h : c ∈ hexChars) : ∃ n < 16, find hexChars c = (n : ℕ) := by
  have hfind : ∀ n < 16, find hexChars (hexChar n) = (n : ℕ) := by decide
  obtain ⟨n, hn, rfl⟩ := exists_hexChar h
  exact ⟨n, hn, hfind n hn⟩

theorem charAt_eq {s : List Char} {i : ℕ} {c : Char} (h : s[i]? = some c) :
    charAt s i = .ok c := by
  rw [charAt, if_neg (by omega), Int.toNat_natCast, h]
  rfl

theorem offset_spec {digits order : List Char} {i : ℕ} (hdigits : ∀ c ∈ digits, c ∈ hexChars)
    (hi : i < digits.length) (horder : 16 ≤ order.length) :
    ∃ c n, charAt digits i = .ok c ∧ find hexChars c = (n : ℕ) ∧ n < order.length ∧
      ∃ d, charAt order n = .ok d ∧ order[n]? = some d ∧ insert order 0 d = .ok (d :: order) := by
  obtain ⟨c, hc⟩ : ∃ c, digits[i]? = some c := ⟨_, List.getElem?_eq_getElem hi⟩
  obtain ⟨n, hn, hfind⟩ := find_digit (hdigits c (List.mem_of_getElem? hc))
  obtain ⟨d, hd⟩ : ∃ d, order[n]? = some d := ⟨_, List.getElem?_eq_getElem (by omega)⟩
  refine ⟨c, n, charAt_eq hc, hfind, by omega, d, charAt_eq hd, hd, ?_⟩
  rw [insert, if_neg (by omega)]
  rfl

theorem moveToFront_spec {digits order : List Char} {i : ℕ}
    (hdigits : ∀ c ∈ digits, c ∈ hexChars) (hi : i < digits.length) (horder : 16 ≤ order.length) :
    ∃ order', moveToFront hexChars digits order i = .ok order' ∧ order'.Perm order := by
  obtain ⟨c, n, hc, hn, hlt, d, hd, hget, hinsert⟩ := offset_spec hdigits hi horder
  refine ⟨d :: order.eraseIdx n, ?_, ?_⟩
  · rw [moveToFront, hc]
    show ((charAt order (find hexChars c)) >>= fun x => insert order 0 x >>= fun order =>
      erase order (find hexChars c + 1) 1) = _
    rw [hn, hd]
    show (insert order 0 d >>= fun order => erase order ((n : ℤ) + 1) 1) = _
    rw [hinsert]
    show erase (d :: order) ((n : ℤ) + 1) 1 = _
    rw [erase, if_neg (by rw [List.length_cons]; omega), List.eraseIdx_eq_take_drop_succ]
    rfl
  · obtain ⟨h, rfl⟩ := List.getElem?_eq_some_iff.mp hget
    exact List.getElem_cons_eraseIdx_perm h

theorem shuffle_spec {digits : List Char} (hdigits : ∀ c ∈ digits, c ∈ hexChars)
    (hlen : 16 ≤ digits.length) :
    ∃ order, (List.range 16).foldlM (moveToFront hexChars digits) hexChars = .ok order ∧
      order.Perm hexChars := by
  apply foldlM_ok fun order : List Char => order.Perm hexChars
  · intro i hi order horder
    obtain ⟨order', hstep, hperm⟩ := moveToFront_spec hdigits
      (show i < digits.length by have := List.mem_range.mp hi; omega)
      (show 16 ≤ order.length by rw [horder.length_eq]; rfl)
    exact ⟨order', hstep, hperm.trans horder⟩
  · exact List.Perm.refl _

theorem repeatInFront_spec {digits order : List Char} {i : ℕ}
    (hdigits : ∀ c ∈ digits, c ∈ hexChars) (hi : i < digits.length) (horder : 16 ≤ order.length) :
    ∃ d ∈ order, repeatInFront hexChars digits order i = .ok (d :: order) := by
  obtain ⟨c, n, hc, hn, hlt, d, hd, hget, hinsert⟩ := offset_spec hdigits hi horder
  refine ⟨d, List.mem_of_getElem? hget, ?_⟩
  rw [repeatInFront, hc]
  show ((charAt order (find hexChars c)) >>= fun x => insert order 0 x) = _
  rw [hn, hd]
  exact hinsert

/-! ### The scrambled hash -/

/-- The first 30 nibbles stay, the last 16 are a permutation of the digits, and the 18
between them contain each digit. -/
structure Scrambled (h h' : uint256) : Prop where
  front : ∀ p < 30, getNibble h' (p : ℕ) = getNibble h (p : ℕ)
  middle : ∀ d < 16, ∃ p, 30 ≤ p ∧ p < 48 ∧ getNibble h' (p : ℕ) = .ok d
  last : ∃ order : List ℕ, order.Perm (List.range 16) ∧
    ∀ i d, order[i]? = some d → getNibble h' ((48 + i : ℕ)) = .ok d

theorem substr_eq {s : List Char} {pos : ℕ} (len : ℕ) (h : pos ≤ s.length) :
    substr s pos len = .ok ((s.drop pos).take len) := if_neg (by omega)

theorem scrambleHash_spec (h : uint256) : ∃ h', scrambleHash h = .ok h' ∧ Scrambled h h' := by
  have hlen : (getHex h).length = 64 := by rw [getHex_eq, List.length_map, List.length_range]
  have hmem : ∀ c ∈ getHex h, c ∈ hexChars := by
    intro c hc
    rw [getHex_eq, List.mem_map] at hc
    obtain ⟨p, -, rfl⟩ := hc
    exact hexChar_mem _ (nibble_lt h p)
  have hsub : ∀ pos len, ∀ c ∈ ((getHex h).drop pos).take len, c ∈ hexChars :=
    fun pos len c hc => hmem c (List.mem_of_mem_drop (List.mem_of_mem_take hc))
  obtain ⟨order, horder, hperm⟩ := shuffle_spec (hsub 46 62) (by
    rw [List.length_take, List.length_drop]
    omega)
  obtain ⟨order₀, horder₀, hperm₀⟩ := shuffle_spec (hsub 30 46) (by
    rw [List.length_take, List.length_drop]
    omega)
  have hlen₀ : order₀.length = 16 := hperm₀.length_eq
  have hlast2 : (((getHex h).drop 62).take 64).length = 2 := by
    rw [List.length_take, List.length_drop]
    omega
  obtain ⟨c₁, hc₁, hfirst⟩ := repeatInFront_spec (i := 0) (hsub 62 64) (by omega)
    (show 16 ≤ order₀.length by omega)
  obtain ⟨c₂, hc₂, hsecond⟩ := repeatInFront_spec (i := 1) (hsub 62 64) (by omega)
    (show 16 ≤ (c₁ :: order₀).length by rw [List.length_cons]; omega)
  -- the text that is read back
  let cs := (getHex h).take 30 ++ (c₂ :: c₁ :: order₀) ++ order
  have hrun : scrambleHash h = .ok (setHex cs) := by
    have hlist : "0123456789abcdef".toList = hexChars := rfl
    rw [scrambleHash, hlist, substr_eq 30 (Nat.zero_le _), ok_bind, substr_eq 46 (by omega),
      ok_bind, substr_eq 62 (by omega), ok_bind, substr_eq 64 (by omega), ok_bind, horder,
      ok_bind, horder₀, ok_bind, hfirst, ok_bind, hsecond, ok_bind]
    rfl
  have hlen' : cs.length = 64 := by
    have horder' : order.length = 16 := hperm.length_eq
    simp only [cs, List.length_append, List.length_take, List.length_cons]
    omega
  have hcs : ∀ c ∈ cs, c ∈ hexChars := by
    intro c hc
    simp only [cs, List.mem_append, List.mem_cons] at hc
    rcases hc with (hc | rfl | rfl | hc) | hc
    · exact hmem c (List.mem_of_mem_take hc)
    · rcases List.mem_cons.mp hc₂ with rfl | hc₂
      · exact hperm₀.subset hc₁
      · exact hperm₀.subset hc₂
    · exact hperm₀.subset hc₁
    · exact hperm₀.subset hc
    · exact hperm.subset hc
  -- a digit of the text is a nibble of the result
  have hread : ∀ p c, cs[p]? = some c → getNibble (setHex cs) (p : ℕ) = .ok (hexDigit c).toNat := by
    intro p c hc
    have hp : p < 64 := hlen' ▸ (List.getElem?_eq_some_iff.mp hc).1
    rw [getNibble_eq _ hp, nibble_setHex hlen' hcs hp, List.getD_eq_getElem?_getD,
      List.getElem?_map, hc]
    rfl
  have hfront : ((getHex h).take 30).length = 30 := by
    rw [List.length_take]
    omega
  refine ⟨setHex cs, hrun, ?_, ?_, ?_⟩
  · intro p hp
    have hget : cs[p]? = some (hexChar (nibble h p)) := by
      show ((getHex h).take 30 ++ (c₂ :: c₁ :: order₀) ++ order)[p]? = _
      rw [List.append_assoc, List.getElem?_append_left (by omega), List.getElem?_take_of_lt hp,
        getHex_eq, List.getElem?_map, List.getElem?_range (by omega)]
      rfl
    rw [getNibble_eq h (by omega), hread p _ hget, hexDigit_hexChar _ (nibble_lt h p)]
    rfl
  · intro d hd
    obtain ⟨k, hk⟩ := List.getElem?_of_mem (hperm₀.symm.subset (hexChar_mem d hd))
    have hlt : k < 16 := hlen₀ ▸ (List.getElem?_eq_some_iff.mp hk).1
    have hget : cs[32 + k]? = some (hexChar d) := by
      show ((getHex h).take 30 ++ (c₂ :: c₁ :: order₀) ++ order)[32 + k]? = _
      rw [List.append_assoc, List.getElem?_append_right (by omega), hfront,
        show 32 + k - 30 = k + 2 by omega, List.getElem?_append_left (by simp; omega)]
      exact hk
    refine ⟨32 + k, by omega, by omega, ?_⟩
    rw [hread _ _ hget, hexDigit_hexChar d hd]
    rfl
  · refine ⟨order.map fun c => (hexDigit c).toNat, ?_, ?_⟩
    · exact hperm.map fun c => (hexDigit c).toNat
    · intro i d hi
      rw [List.getElem?_map, Option.map_eq_some_iff] at hi
      obtain ⟨c, hc, rfl⟩ := hi
      apply hread
      show ((getHex h).take 30 ++ (c₂ :: c₁ :: order₀) ++ order)[48 + i]? = some c
      rw [List.getElem?_append_right (by simp; omega)]
      rw [show 48 + i - ((getHex h).take 30 ++ (c₂ :: c₁ :: order₀)).length = i by
        simp; omega]
      exact hc

/-! ### The rounds -/

theorem isScrambleHash_eq (h : uint256) :
    isScrambleHash h = .ok (decide (nibble h 29 % 2 = 0)) := by
  have hread : getNibble h 29 = .ok (nibble h 29) := getNibble_eq h (p := 29) (by omega)
  rw [isScrambleHash, hread]
  rfl

theorem selectingHash_spec (h : uint256) : ∃ blockHash, selectingHash h = .ok blockHash := by
  obtain ⟨h', hh', -⟩ := scrambleHash_spec h
  rw [selectingHash, isScrambleHash_eq, ok_bind]
  split
  next => exact ⟨h', hh'⟩
  next => exact ⟨h, rfl⟩

/-- The selection of a round, a digit and a bit. -/
def selection (h : uint256) (i : ℕ) : ℕ := nibble h (47 + i) + nibble h (30 + i) % 2

theorem selection_le (h : uint256) (i : ℕ) : selection h i ≤ 16 := by
  have := nibble_lt h (47 + i)
  rw [selection]
  omega

theorem getSelection_eq (h : uint256) {i : ℕ} (hi : i < 17) :
    getSelection h i = .ok (selection h i) := by
  have hfirst : getNibble h (47 + i) = .ok (nibble h (47 + i)) :=
    getNibble_eq h (p := 47 + i) (by omega)
  have hsecond : getNibble h (30 + i) = .ok (nibble h (30 + i)) :=
    getNibble_eq h (p := 30 + i) (by omega)
  rw [getSelection, if_neg (by omega), if_neg (by omega), hfirst, ok_bind, hsecond, ok_bind]
  rfl

theorem getHashSelectionsString_spec (h : uint256) :
    ∃ names, getHashSelectionsString h = .ok names := by
  obtain ⟨blockHash, hblock⟩ := selectingHash_spec h
  rw [getHashSelectionsString, hblock, ok_bind]
  obtain ⟨names, hnames, -⟩ := foldlM_ok (fun _ : String => True)
    (f := fun hashSelections i => do
      let hashSelected ← getSelection blockHash (i : ℕ)
      (ALGOS_HASHES[hashSelected]?).elim (.error .outOfRange) fun name =>
        .ok (hashSelections ++ name)) (l := List.range 17) (b := "") (by
    intro i hi names _
    obtain ⟨name, hname⟩ : ∃ name, ALGOS_HASHES[selection blockHash i]? = some name := by
      have hle := selection_le blockHash i
      exact ⟨_, List.getElem?_eq_getElem (show selection blockHash i < 17 by omega)⟩
    refine ⟨names ++ name, ?_, trivial⟩
    rw [getSelection_eq blockHash (List.mem_range.mp hi), ok_bind, hname]
    rfl) trivial
  exact ⟨names, hnames⟩

theorem switch_writes (sph : SphHashes) (bytes : List UInt8) {k : ℕ} (hk : k ≤ 16) :
    ∃ out, switch sph k bytes = some out := by
  interval_cases k <;> exact ⟨_, rfl⟩

section

variable (sph : SphHashes) (blockHash : uint256) (input : List UInt8)

/-- What the rounds come to, one after the other. -/
def digest : ℕ → uint512
  | 0 => (switch sph (selection blockHash 0) input).getD (Vector.replicate 64 0)
  | i + 1 =>
    (switch sph (selection blockHash (i + 1)) (digest i).toList).getD (Vector.replicate 64 0)

theorem digest_zero :
    switch sph (selection blockHash 0) input = some (digest sph blockHash input 0) := by
  obtain ⟨out, hout⟩ := switch_writes sph input (selection_le blockHash 0)
  rw [digest, hout]
  rfl

theorem digest_succ (i : ℕ) :
    switch sph (selection blockHash (i + 1)) (digest sph blockHash input i).toList =
      some (digest sph blockHash input (i + 1)) := by
  obtain ⟨out, hout⟩ := switch_writes sph (digest sph blockHash input i).toList
    (selection_le blockHash (i + 1))
  rw [digest, hout]
  rfl

theorem rounds_spec : ∀ {n : ℕ}, n ≤ 17 → ∃ slots,
    (List.range n).foldlM (round sph blockHash input) (List.replicate 17 none) = .ok slots ∧
      slots.length = 17 ∧ ∀ j < n, slots[j]? = some (some (digest sph blockHash input j)) := by
  intro n
  induction n with
  | zero => exact fun _ => ⟨_, rfl, rfl, fun j hj => absurd hj (Nat.not_lt_zero j)⟩
  | succ n ih =>
    intro hn
    obtain ⟨slots, hslots, hlen, hwritten⟩ := ih (by omega)
    have hround : round sph blockHash input slots n =
        .ok (slots.set n (some (digest sph blockHash input n))) := by
      rw [round]
      rcases n with - | m
      · rw [show toHash input slots 0 = .ok input from rfl, ok_bind,
          getSelection_eq blockHash (by omega), ok_bind, digest_zero]
        rfl
      · have hread : toHash input slots (m + 1) =
            .ok (digest sph blockHash input m).toList := by
          rw [toHash, if_neg (by omega), Nat.add_sub_cancel, hwritten m (by omega)]
          rfl
        rw [hread, ok_bind, getSelection_eq blockHash (by omega), ok_bind, digest_succ]
        rfl
    refine ⟨slots.set n (some (digest sph blockHash input n)), ?_, ?_, fun j hj => ?_⟩
    · rw [List.range_succ, List.foldlM_append, hslots, ok_bind, List.foldlM_cons, hround]
      rfl
    · rw [List.length_set, hlen]
    · rcases Nat.lt_succ_iff_lt_or_eq.mp hj with hj | rfl
      · rw [List.getElem?_set_ne (by omega), hwritten j hj]
      · rw [List.getElem?_set_self (by omega)]

end

/-- **Every round of the proof of work runs.** -/
theorem hash_rounds (sph : SphHashes) (PrevBlockHash : uint256) (input : List UInt8) :
    (∃ scrambled, scrambleHash PrevBlockHash = .ok scrambled ∧
        Scrambled PrevBlockHash scrambled) ∧
      (∃ scramble, isScrambleHash PrevBlockHash = .ok scramble) ∧
      (∀ (blockHash : uint256), ∀ i < 17, ∃ hashSelection ≤ 16,
        getSelection blockHash (i : ℕ) = .ok hashSelection) ∧
      (∃ blockHash, selectingHash PrevBlockHash = .ok blockHash ∧ ∃ slots : ℕ → uint512,
        (∃ hashSelection, getSelection blockHash 0 = .ok hashSelection ∧
          switch sph hashSelection input = some (slots 0)) ∧
        (∀ i < 16, ∃ hashSelection, getSelection blockHash ((i + 1 : ℕ)) = .ok hashSelection ∧
          switch sph hashSelection (slots i).toList = some (slots (i + 1))) ∧
        hash sph PrevBlockHash input = .ok ((slots 16).take 32)) ∧
      ∃ names, getHashSelectionsString PrevBlockHash = .ok names := by
  refine ⟨scrambleHash_spec PrevBlockHash, ⟨_, isScrambleHash_eq PrevBlockHash⟩,
    fun blockHash i hi => ⟨_, selection_le blockHash i, getSelection_eq blockHash hi⟩, ?_,
    getHashSelectionsString_spec PrevBlockHash⟩
  obtain ⟨blockHash, hblock⟩ := selectingHash_spec PrevBlockHash
  refine ⟨blockHash, hblock, digest sph blockHash input,
    ⟨_, getSelection_eq blockHash (i := 0) (by omega), digest_zero sph blockHash input⟩,
    fun i hi => ⟨_, getSelection_eq blockHash (by omega), digest_succ sph blockHash input i⟩, ?_⟩
  obtain ⟨slots, hslots, -, hwritten⟩ := rounds_spec sph blockHash input (Nat.le_refl 17)
  rw [hash, hblock, ok_bind, hslots, ok_bind, hwritten 16 (by omega)]
  rfl

end Stonecoin.HashSelection
