/-
Bloom filters (`bloom.h`, `bloom.cpp`) and the hash function in them (`MurmurHash3` of
`hash.cpp`).

A hash that is taken modulo zero is `none`.  Two flags go past the bits: a full filter contains
everything and an empty one nothing.
-/
import Stonecoin.Solver
import Stonecoin.TxFormat
import Stonecoin.RollingSets

namespace Stonecoin

/-! ### MurmurHash3 -/

def rotl32 (x : UInt32) (r : UInt32) : UInt32 := x <<< r ||| x >>> (32 - r)

/-- A block is scrambled before it is mixed in. -/
def murmurScramble (k1 : UInt32) : UInt32 := rotl32 (k1 * 0xcc9e2d51) 15 * 0x1b873593

/-- The loop over the blocks of four bytes, with what is left of the data. -/
def murmurBody : UInt32 → List UInt8 → UInt32 × List UInt8
  | h1, b0 :: b1 :: b2 :: b3 :: data =>
    murmurBody (rotl32 (h1 ^^^ murmurScramble (UInt32.ofNat (readLE [b0, b1, b2, b3]))) 13 * 5 +
      0xe6546b64) data
  | h1, tail => (h1, tail)

/-- The bytes after the last block. -/
def murmurTail (h1 : UInt32) : List UInt8 → UInt32
  | [t0, t1, t2] =>
    h1 ^^^ murmurScramble (t2.toUInt32 <<< 16 ^^^ t1.toUInt32 <<< 8 ^^^ t0.toUInt32)
  | [t0, t1] => h1 ^^^ murmurScramble (t1.toUInt32 <<< 8 ^^^ t0.toUInt32)
  | [t0] => h1 ^^^ murmurScramble t0.toUInt32
  | _ => h1

def murmurHash3 (nHashSeed : UInt32) (vDataToHash : List UInt8) : UInt32 :=
  let (h1, tail) := murmurBody nHashSeed vDataToHash
  let h1 := murmurTail h1 tail ^^^ UInt32.ofNat vDataToHash.length
  let h1 := (h1 ^^^ h1 >>> 16) * 0x85ebca6b
  let h1 := (h1 ^^^ h1 >>> 13) * 0xc2b2ae35
  h1 ^^^ h1 >>> 16

example : murmurHash3 0 [0x00, 0x11, 0x22, 0x33, 0x44, 0x55, 0x66] = 0xb074502c ∧
    murmurHash3 0xFBA4C795 [] = 0x6a396f08 := by decide

/-! ### CBloomFilter -/

def BLOOM_UPDATE_ALL : UInt8 := 1
def BLOOM_UPDATE_P2PUBKEY_ONLY : UInt8 := 2
def BLOOM_UPDATE_MASK : UInt8 := 3

structure CBloomFilter where
  vData : List UInt8
  isFull : Bool
  isEmpty : Bool
  nHashFuncs : ℕ
  nTweak : UInt32
  nFlags : UInt8
deriving DecidableEq

def bitAt (vData : List UInt8) (nIndex : ℕ) : UInt8 :=
  vData.getD (nIndex >>> 3) 0 &&& 1 <<< UInt8.ofNat (7 &&& nIndex)

def setBit (vData : List UInt8) (nIndex : ℕ) : List UInt8 :=
  vData.modify (nIndex >>> 3) (· ||| 1 <<< UInt8.ofNat (7 &&& nIndex))

namespace CBloomFilter

variable (f : CBloomFilter)

def updateEmptyFull : CBloomFilter :=
  { f with
    isFull := f.vData.all fun b => b = 0xff
    isEmpty := f.vData.all fun b => b = 0 }

def load (vData : List UInt8) (nHashFuncs : ℕ) (nTweak : UInt32) (nFlags : UInt8) : CBloomFilter :=
  updateEmptyFull ⟨vData, true, false, nHashFuncs, nTweak, nFlags⟩

def hash (nHashNum : ℕ) (vDataToHash : List UInt8) : Option ℕ :=
  if f.vData.length * 8 = 0 then none
  else some ((murmurHash3 (UInt32.ofNat nHashNum * 0xFBA4C795 + f.nTweak) vDataToHash).toNat %
    (f.vData.length * 8))

def insertLoop (vKey : List UInt8) : List ℕ → List UInt8 → Option (List UInt8)
  | [], vData => some vData
  | i :: l, vData => do
    let nIndex ← f.hash i vKey
    insertLoop vKey l (setBit vData nIndex)

def insert (vKey : List UInt8) : Option CBloomFilter :=
  if f.isFull then some f
  else do
    let vData ← f.insertLoop vKey (List.range f.nHashFuncs) f.vData
    pure { f with vData := vData, isEmpty := false }

def containsLoop (vKey : List UInt8) : List ℕ → Option Bool
  | [] => some true
  | i :: l => do
    let nIndex ← f.hash i vKey
    if bitAt f.vData nIndex = 0 then some false else containsLoop vKey l

def contains (vKey : List UInt8) : Option Bool :=
  if f.isFull then some true
  else if f.isEmpty then some false
  else f.containsLoop vKey (List.range f.nHashFuncs)

def clear : CBloomFilter :=
  { f with
    vData := List.replicate f.vData.length 0
    isFull := false
    isEmpty := true }

/-- The element is reported. -/
def Has (vKey : List UInt8) : Prop := f.contains vKey = some true

instance (vKey : List UInt8) : Decidable (f.Has vKey) :=
  inferInstanceAs (Decidable (f.contains vKey = some true))

end CBloomFilter

/-! ### Bits -/

theorem and_eq_zero_of_or {b x y : UInt8} (h : (b ||| x) &&& y = 0) : b &&& y = 0 := by
  have hbits : (b ||| x) &&& y = b &&& y ||| x &&& y := by
    rw [← UInt8.toBitVec_inj]
    exact BitVec.and_or_distrib_right
  rw [hbits, UInt8.or_eq_zero_iff] at h
  exact h.1

theorem or_and_self (b x : UInt8) : (b ||| x) &&& x = x := by
  rw [← UInt8.toBitVec_inj]
  ext i hi
  simpa using fun hx => Or.inr hx

theorem mask_ne_zero (nIndex : ℕ) : (1 : UInt8) <<< UInt8.ofNat (7 &&& nIndex) ≠ 0 := by
  have hlt : 7 &&& nIndex < 8 := lt_of_le_of_lt Nat.and_le_left (by decide)
  generalize 7 &&& nIndex = k at hlt
  revert k
  decide

theorem length_setBit (vData : List UInt8) (nIndex : ℕ) :
    (setBit vData nIndex).length = vData.length := by
  simp [setBit]

theorem bitAt_setBit_of_ne {vData : List UInt8} {n : ℕ} (h : bitAt vData n ≠ 0) (nIndex : ℕ) :
    bitAt (setBit vData nIndex) n ≠ 0 := by
  intro hzero
  apply h
  unfold bitAt setBit at *
  rw [List.getD_eq_getElem?_getD, List.getElem?_modify] at hzero
  rw [List.getD_eq_getElem?_getD]
  cases hget : vData[n >>> 3]? with
  | none => simp
  | some b =>
    rw [hget, Option.map_eq_map, Option.map_some, Option.getD_some] at hzero
    rw [Option.getD_some]
    split at hzero
    next => exact and_eq_zero_of_or hzero
    next => exact hzero

theorem bitAt_setBit_self {vData : List UInt8} {nIndex : ℕ} (h : nIndex < vData.length * 8) :
    bitAt (setBit vData nIndex) nIndex ≠ 0 := by
  have hlt : nIndex >>> 3 < vData.length := by
    rw [Nat.shiftRight_eq_div_pow]
    omega
  unfold bitAt setBit
  rw [List.getD_eq_getElem?_getD, List.getElem?_modify_eq, List.getElem?_eq_getElem hlt,
    Option.map_eq_map, Option.map_some, Option.getD_some, or_and_self]
  exact mask_ne_zero nIndex

namespace CBloomFilter

variable {f g : CBloomFilter} {vKey : List UInt8}

/-! ### Filters that grow -/

/-- The filter is full or has bits, so no hash is taken modulo zero. -/
def Sized (f : CBloomFilter) : Prop := f.isFull = true ∨ f.vData ≠ []

/-- The same filter, with more bits. -/
structure Grows (f g : CBloomFilter) : Prop where
  isFull : g.isFull = f.isFull
  isEmpty : g.isEmpty = true → f.isEmpty = true
  length : g.vData.length = f.vData.length
  bits : ∀ n, bitAt f.vData n ≠ 0 → bitAt g.vData n ≠ 0
  nHashFuncs : g.nHashFuncs = f.nHashFuncs
  nTweak : g.nTweak = f.nTweak
  nFlags : g.nFlags = f.nFlags

theorem Grows.refl (f : CBloomFilter) : Grows f f :=
  ⟨rfl, fun h => h, rfl, fun _ h => h, rfl, rfl, rfl⟩

theorem Grows.trans {k : CBloomFilter} (h : Grows f g) (h' : Grows g k) : Grows f k where
  isFull := h'.isFull.trans h.isFull
  isEmpty hempty := h.isEmpty (h'.isEmpty hempty)
  length := h'.length.trans h.length
  bits n hn := h'.bits n (h.bits n hn)
  nHashFuncs := h'.nHashFuncs.trans h.nHashFuncs
  nTweak := h'.nTweak.trans h.nTweak
  nFlags := h'.nFlags.trans h.nFlags

theorem Grows.hash (h : Grows f g) (i : ℕ) (vKey : List UInt8) : g.hash i vKey = f.hash i vKey := by
  simp only [CBloomFilter.hash, h.length, h.nTweak]

theorem Grows.sized (h : Grows f g) (hf : Sized f) : Sized g := by
  rcases hf with hfull | hdata
  · exact Or.inl (h.isFull.trans hfull)
  · refine Or.inr fun hnil => hdata (List.length_eq_zero_iff.mp ?_)
    rw [← h.length, hnil]
    rfl

theorem hash_eq (hdata : f.vData ≠ []) (i : ℕ) (vKey : List UInt8) :
    ∃ nIndex, f.hash i vKey = some nIndex ∧ nIndex < f.vData.length * 8 := by
  have hpos := List.length_pos_iff.mpr hdata
  refine ⟨_, if_neg (by omega), Nat.mod_lt _ (by omega)⟩

theorem containsLoop_eq (hdata : f.vData ≠ []) (vKey : List UInt8) : ∀ l : List ℕ,
    f.containsLoop vKey l =
      some (decide (∀ i ∈ l, ∀ nIndex, f.hash i vKey = some nIndex → bitAt f.vData nIndex ≠ 0)) := by
  intro l
  induction l with
  | nil => simp [containsLoop]
  | cons i l ih =>
    obtain ⟨nIndex, hhash, -⟩ := hash_eq hdata i vKey
    rw [containsLoop, hhash, Option.bind_eq_bind, Option.bind_some, ih]
    split
    next hzero => simp [hhash, hzero]
    next hne => simp [hhash, hne]

theorem Sized.contains (h : Sized f) (vKey : List UInt8) : ∃ b, f.contains vKey = some b := by
  unfold CBloomFilter.contains
  split
  next => exact ⟨true, rfl⟩
  next hfull =>
    split
    next => exact ⟨false, rfl⟩
    next => exact ⟨_, containsLoop_eq (h.resolve_left hfull) vKey _⟩

theorem Sized.has_iff (h : Sized f) : f.Has vKey ↔ f.isFull = true ∨ (f.isEmpty = false ∧
    ∀ i < f.nHashFuncs, ∀ nIndex, f.hash i vKey = some nIndex → bitAt f.vData nIndex ≠ 0) := by
  unfold Has CBloomFilter.contains
  cases hfull : f.isFull with
  | true => simp
  | false =>
    have hdata : f.vData ≠ [] := h.resolve_left (by simp [hfull])
    cases hempty : f.isEmpty with
    | true => simp
    | false => simp [containsLoop_eq hdata]

theorem Grows.has (h : Grows f g) (hf : Sized f) (hkey : f.Has vKey) : g.Has vKey := by
  rw [(h.sized hf).has_iff]
  rcases hf.has_iff.mp hkey with hfull | ⟨hempty, hbits⟩
  · exact Or.inl (h.isFull.trans hfull)
  · refine Or.inr ⟨?_, fun i hi nIndex hhash => ?_⟩
    · cases hg : g.isEmpty with
      | false => rfl
      | true => exact absurd (hempty.symm.trans (h.isEmpty hg)) Bool.false_ne_true
    · rw [h.hash] at hhash
      rw [h.nHashFuncs] at hi
      exact h.bits nIndex (hbits i hi nIndex hhash)

theorem insertLoop_eq (hdata : f.vData ≠ []) (vKey : List UInt8) : ∀ (l : List ℕ)
    (vData : List UInt8), vData.length = f.vData.length →
      ∃ vData', f.insertLoop vKey l vData = some vData' ∧ vData'.length = f.vData.length ∧
        (∀ n, bitAt vData n ≠ 0 → bitAt vData' n ≠ 0) ∧
        ∀ i ∈ l, ∀ nIndex, f.hash i vKey = some nIndex → bitAt vData' nIndex ≠ 0 := by
  intro l
  induction l with
  | nil => exact fun vData hlen => ⟨vData, rfl, hlen, fun _ h => h, by simp⟩
  | cons i l ih =>
    intro vData hlen
    obtain ⟨nIndex, hhash, hlt⟩ := hash_eq hdata i vKey
    obtain ⟨vData', hloop, hlen', hkeep, hset⟩ := ih (setBit vData nIndex)
      ((length_setBit vData nIndex).trans hlen)
    refine ⟨vData', ?_, hlen', fun n hn => hkeep n (bitAt_setBit_of_ne hn nIndex), ?_⟩
    · rw [insertLoop, hhash]
      exact hloop
    · intro j hj m hm
      rcases List.mem_cons.mp hj with rfl | hj
      · obtain rfl := Option.some.inj (hhash.symm.trans hm)
        refine hkeep _ (bitAt_setBit_self ?_)
        rwa [hlen]
      · exact hset j hj m hm

theorem Sized.insert (h : Sized f) (vKey : List UInt8) :
    ∃ g, f.insert vKey = some g ∧ Grows f g ∧ g.Has vKey := by
  unfold CBloomFilter.insert
  cases hfull : f.isFull with
  | true => exact ⟨f, rfl, Grows.refl f, h.has_iff.mpr (Or.inl hfull)⟩
  | false =>
    have hdata : f.vData ≠ [] := h.resolve_left (by simp [hfull])
    obtain ⟨vData', hloop, hlen, hkeep, hset⟩ :=
      insertLoop_eq hdata vKey (List.range f.nHashFuncs) f.vData rfl
    have hgrows : Grows f { f with vData := vData', isEmpty := false } :=
      ⟨rfl, fun hfalse => absurd hfalse Bool.false_ne_true, hlen, hkeep, rfl, rfl, rfl⟩
    refine ⟨{ f with vData := vData', isEmpty := false }, by simp [hloop, hfull], ?_, ?_⟩
    · exact hgrows
    · rw [(hgrows.sized h).has_iff]
      refine Or.inr ⟨rfl, fun i hi nIndex hhash => ?_⟩
      rw [hgrows.hash] at hhash
      exact hset i (List.mem_range.mpr hi) nIndex hhash

theorem sized_load (vData : List UInt8) (nHashFuncs : ℕ) (nTweak : UInt32) (nFlags : UInt8) :
    Sized (load vData nHashFuncs nTweak nFlags) := by
  cases vData with
  | nil => exact Or.inl rfl
  | cons b vData => exact Or.inr (List.cons_ne_nil b vData)

end CBloomFilter

end Stonecoin
