/-
Reads of the address indexes (`txdb.cpp`, `ReadAddressIndex` and `ReadAddressUnspentIndex`).

The database is sorted by the bytes of its keys.  A read seeks the key of an address, or of an
address and a height, and reads on as long as the prefix and the hash of what it finds are the ones
asked for.  It does not look at the address type, which stands before the hash: where no other hash
follows under the type asked for, the scan goes on to the next type.

  * `addressReads_exact_iff`: both reads.
-/
import Stonecoin.KeyScans
import Stonecoin.AddressIndex
import Stonecoin.Streams

namespace Stonecoin

open Readers

/-! ### Keys in the database -/

/-- `ser_writedata32be` and the like: the highest byte first. -/
def writeBE : ℕ → ℕ → List UInt8
  | 0, _ => []
  | width + 1, n => UInt8.ofNat (n / 256 ^ width % 256) :: writeBE width n

def readBE : List UInt8 → ℕ
  | [] => 0
  | b :: bs => b.toNat * 256 ^ bs.length + readBE bs

theorem length_writeBE : ∀ width n : ℕ, (writeBE width n).length = width := by
  intro width
  induction width with
  | zero => exact fun _ => rfl
  | succ width ih => exact fun n => congrArg Nat.succ (ih n)

theorem readBE_writeBE : ∀ width n : ℕ, readBE (writeBE width n) = n % 256 ^ width := by
  intro width
  induction width with
  | zero => exact fun n => (Nat.mod_one n).symm
  | succ width ih =>
    intro n
    have hbyte : (UInt8.ofNat (n / 256 ^ width % 256)).toNat = n / 256 ^ width % 256 :=
      UInt8.toNat_ofNat_of_lt (Nat.mod_lt _ (by decide))
    rw [writeBE, readBE, hbyte, length_writeBE, ih, Nat.pow_succ, Nat.mod_mul, Nat.mul_comm,
      Nat.add_comm]

theorem le_of_writeBE_le {r s : List UInt8} : ∀ {width n m : ℕ},
    writeBE width n ++ r ≤ writeBE width m ++ s → n % 256 ^ width ≤ m % 256 ^ width := by
  intro width
  induction width with
  | zero => exact fun _ => le_of_eq ((Nat.mod_one _).trans (Nat.mod_one _).symm)
  | succ width ih =>
    intro n m h
    have hn : n % 256 ^ width < 256 ^ width := Nat.mod_lt _ (Nat.pow_pos (by decide))
    rw [writeBE, writeBE, List.cons_append, List.cons_append, List.cons_le_cons_iff] at h
    rw [Nat.pow_succ, Nat.mod_mul, Nat.mod_mul]
    have hbyte : ∀ a : ℕ, (UInt8.ofNat (a / 256 ^ width % 256)).toNat = a / 256 ^ width % 256 :=
      fun a => UInt8.toNat_ofNat_of_lt (Nat.mod_lt _ (by decide))
    rcases h with hlt | ⟨heq, hrest⟩
    · have hlt' := UInt8.lt_iff_toNat_lt.mp hlt
      rw [hbyte, hbyte] at hlt'
      have hstep : 256 ^ width * (n / 256 ^ width % 256) + 256 ^ width ≤
          256 ^ width * (m / 256 ^ width % 256) := by
        rw [← Nat.mul_succ]
        exact Nat.mul_le_mul_left _ hlt'
      omega
    · have heq' := congrArg UInt8.toNat heq
      rw [hbyte, hbyte] at heq'
      rw [heq']
      exact Nat.add_le_add_right (ih hrest) _

def readUInt160 : Reader UInt8 UInt160 := UInt160.ofBytes <$> Readers.take 20

theorem UInt160.ofBytes_bytes (h : UInt160) : UInt160.ofBytes h.bytes = h := by
  obtain ⟨bytes, hsize⟩ := h
  have hbytes : (List.range 20).map (fun i => bytes.getD i 0) = bytes := by
    refine List.ext_getElem (by rw [List.length_map, List.length_range, hsize]) fun i hi hi' => ?_
    simp [List.getD_eq_getElem?_getD, hi']
  simp only [UInt160.ofBytes, hbytes]

theorem reads_uint160 (h : UInt160) : Reads readUInt160 h.bytes h := by
  have hmap := (Reads.take h.bytes).map UInt160.ofBytes
  rw [h.size_eq, h.ofBytes_bytes] at hmap
  exact hmap

/-- `ser_readdata32be` and the like. -/
def readNumBE (w : ℕ) : Reader UInt8 ℕ := readBE <$> Readers.take w

theorem reads_numBE {w n : ℕ} (h : n < 256 ^ w) : Reads (readNumBE w) (writeBE w n) n := by
  have htake := Reads.take (writeBE w n)
  rw [length_writeBE] at htake
  have hmap := htake.map readBE
  rwa [readBE_writeBE, Nat.mod_eq_of_lt h] at hmap

def toInt (u : ℕ) : ℤ := if 2 * (u : ℤ) < 256 ^ 4 then u else u - 256 ^ 4

theorem toInt_of_lt {u : ℕ} (h : 2 * (u : ℤ) < 256 ^ 4) : toInt u = u := if_pos h

namespace CAddressIndexKey

/-- `CAddressIndexKey::Serialize`.  Heights are stored big-endian for key sorting. -/
def write (k : CAddressIndexKey) : List UInt8 :=
  writeLE 1 k.type ++ (k.hashBytes.bytes ++ (writeBE 4 (k.blockHeight % 256 ^ 4).toNat ++
    (writeBE 4 k.txindex ++ (writeHash k.txhash ++ (writeLE 4 k.index ++
      writeLE 1 (if k.spending then 1 else 0))))))

def read : Reader UInt8 CAddressIndexKey := do
  let type ← readNum 1
  let hashBytes ← readUInt160
  let blockHeight ← readNumBE 4
  let txindex ← readNumBE 4
  let txhash ← readHash
  let index ← readNum 4
  let f ← readNum 1
  pure ⟨type, hashBytes, toInt blockHeight, txindex, txhash, index, f ≠ 0⟩

/-- The fields of a key of an index, at a height that is not negative. -/
structure Typed (k : CAddressIndexKey) : Prop where
  type : k.type < 256
  blockHeight : 0 ≤ k.blockHeight ∧ 2 * k.blockHeight < 256 ^ 4
  txindex : k.txindex < 256 ^ 4
  index : k.index < 256 ^ 4

theorem reads {k : CAddressIndexKey} (h : k.Typed) : Reads read k.write k := by
  obtain ⟨n, hn⟩ := Int.eq_ofNat_of_zero_le h.blockHeight.1
  have hlt := h.blockHeight.2
  have hheight : (k.blockHeight % 256 ^ 4).toNat = n := by
    rw [hn] at hlt ⊢
    omega
  have hn' : n < 256 ^ 4 := by omega
  have hspending : (if k.spending then 1 else 0) < 256 ^ 1 := by
    split <;> decide
  unfold read write
  rw [hheight]
  refine Reads.bind (reads_num (w := 1) h.type) ?_
  refine Reads.bind (reads_uint160 _) ?_
  refine Reads.bind (reads_numBE hn') ?_
  refine Reads.bind (reads_numBE h.txindex) ?_
  refine Reads.bind (reads_hash _) ?_
  refine Reads.bind (reads_num h.index) ?_
  have hlast := (reads_num hspending).bind_pure fun f : ℕ =>
    CAddressIndexKey.mk k.type k.hashBytes (toInt n) k.txindex k.txhash k.index (f ≠ 0)
  have hflag : decide ((if k.spending then 1 else 0) ≠ 0) = k.spending := by
    cases k.spending <;> rfl
  have hk : CAddressIndexKey.mk k.type k.hashBytes (toInt n) k.txindex k.txhash k.index
      (decide ((if k.spending then 1 else 0) ≠ 0)) = k := by
    rw [toInt_of_lt (hn ▸ hlt), ← hn, hflag]
  rw [hk] at hlast
  exact hlast

end CAddressIndexKey

namespace CAddressUnspentKey

def write (k : CAddressUnspentKey) : List UInt8 :=
  writeLE 1 k.type ++ (k.hashBytes.bytes ++ (writeHash k.txhash ++ writeLE 4 k.index))

def read : Reader UInt8 CAddressUnspentKey := do
  let type ← readNum 1
  let hashBytes ← readUInt160
  let txhash ← readHash
  let index ← readNum 4
  pure ⟨type, hashBytes, txhash, index⟩

structure Typed (k : CAddressUnspentKey) : Prop where
  type : k.type < 256
  index : k.index < 256 ^ 4

theorem reads {k : CAddressUnspentKey} (h : k.Typed) : Reads read k.write k := by
  refine Reads.bind (reads_num (w := 1) h.type) ?_
  refine Reads.bind (reads_uint160 _) ?_
  refine Reads.bind (reads_hash _) ?_
  exact (reads_num h.index).bind_pure fun index =>
    CAddressUnspentKey.mk k.type k.hashBytes k.txhash index

end CAddressUnspentKey

def CAddressUnspentValue.read : Reader UInt8 CAddressUnspentValue := do
  let satoshis ← readInt 8
  let script ← readVector next
  let blockHeight ← readInt 4
  pure ⟨satoshis, script, blockHeight⟩

/-! ### An index in the database -/

def iteratorKey (type : ℕ) (addressHash : UInt160) : List UInt8 :=
  writeLE 1 type ++ addressHash.bytes

/-- What the two indexes have in common: the prefix of the keys, and the address that stands first
in a key. -/
structure Index (K V : Type) where
  prefixByte : UInt8
  type : K → ℕ
  hashBytes : K → UInt160
  write : K → List UInt8
  read : Reader UInt8 K
  readValue : Reader UInt8 V
  Typed : K → Prop
  type_lt : ∀ {k}, Typed k → type k < 256
  reads : ∀ {k}, Typed k → Reads read (write k) k
  write_address : ∀ k, iteratorKey (type k) (hashBytes k) <+: write k

/-- `DB_ADDRESSINDEX`. -/
def addressIndex : Index CAddressIndexKey ℤ where
  prefixByte := 0x61
  type := CAddressIndexKey.type
  hashBytes := CAddressIndexKey.hashBytes
  write := CAddressIndexKey.write
  read := CAddressIndexKey.read
  readValue := readInt 8
  Typed := CAddressIndexKey.Typed
  type_lt := fun h => h.type
  reads := CAddressIndexKey.reads
  write_address := fun _ => ⟨_, List.append_assoc _ _ _⟩

/-- `DB_ADDRESSUNSPENTINDEX`. -/
def addressUnspentIndex : Index CAddressUnspentKey CAddressUnspentValue where
  prefixByte := 0x75
  type := CAddressUnspentKey.type
  hashBytes := CAddressUnspentKey.hashBytes
  write := CAddressUnspentKey.write
  read := CAddressUnspentKey.read
  readValue := CAddressUnspentValue.read
  Typed := CAddressUnspentKey.Typed
  type_lt := fun h => h.type
  reads := CAddressUnspentKey.reads
  write_address := fun _ => ⟨_, List.append_assoc _ _ _⟩

abbrev Entries := List (List UInt8 × List UInt8)

namespace Index

variable {K V : Type} (I : Index K V)

def key (k : K) : List UInt8 := I.prefixByte :: I.write k

def getKey (bytes : List UInt8) : Option (UInt8 × K) :=
  ((do let first ← next; let second ← I.read; pure (first, second) : Reader UInt8 (UInt8 × K))
    bytes).map Prod.fst

def getValue (bytes : List UInt8) : Option V := (I.readValue bytes).map Prod.fst

/-- What of the database is in this index can be read. -/
def Readable (entries : Entries) : Prop :=
  ∀ e ∈ entries, e.1.head? = some I.prefixByte →
    ∃ k v, I.Typed k ∧ e.1 = I.key k ∧ I.getValue e.2 = some v

def Holds (entries : Entries) (k : K) (v : V) : Prop :=
  I.Typed k ∧ ∃ bytes, (I.key k, bytes) ∈ entries ∧ I.getValue bytes = some v

/-- The loops of the reads, from a place of the cursor on: `stay` is the test of the key behind the
one of the prefix.  The flag is false for a value that cannot be read. -/
def readLoop (stay : K → Bool) : Entries → List (K × V) → Bool × List (K × V)
  | [], out => (true, out)
  | (key, value) :: cursor, out =>
    match I.getKey key with
    | some (first, second) =>
      if first = I.prefixByte ∧ stay second then
        match I.getValue value with
        | some nValue => readLoop stay cursor (out ++ [(second, nValue)])
        | none => (false, out)
      else (true, out)
    | none => (true, out)

def readFrom (entries : Entries) (seekKey : List UInt8) (stay : K → Bool) (out : List (K × V)) :
    Bool × List (K × V) :=
  I.readLoop stay (KeyScans.seek seekKey entries) out

end Index

/-- What the two reads expect of the database: it is sorted, and its address indexes can be
read. -/
structure AddressDB where
  entries : Entries
  sorted : KeyScans.Sorted entries
  addresses : addressIndex.Readable entries
  unspents : addressUnspentIndex.Readable entries

def iteratorHeightKey (type : ℕ) (addressHash : UInt160) (blockHeight : ℤ) : List UInt8 :=
  iteratorKey type addressHash ++ writeBE 4 (blockHeight % 256 ^ 4).toNat

def addressSeekKey (addressHash : UInt160) (type : ℕ) (start stop : ℤ) : List UInt8 :=
  addressIndex.prefixByte ::
    if 0 < start ∧ 0 < stop then iteratorHeightKey type addressHash start
    else iteratorKey type addressHash

def readAddressIndex (db : AddressDB) (addressHash : UInt160) (type : ℕ)
    (out : List (CAddressIndexKey × ℤ)) (start stop : ℤ) : Bool × List (CAddressIndexKey × ℤ) :=
  addressIndex.readFrom db.entries (addressSeekKey addressHash type start stop)
    (fun key => key.hashBytes = addressHash ∧ ¬ (0 < stop ∧ stop < key.blockHeight)) out

def unspentSeekKey (addressHash : UInt160) (type : ℕ) : List UInt8 :=
  addressUnspentIndex.prefixByte :: iteratorKey type addressHash

def readAddressUnspentIndex (db : AddressDB) (addressHash : UInt160) (type : ℕ)
    (unspentOutputs : List (CAddressUnspentKey × CAddressUnspentValue)) :
    Bool × List (CAddressUnspentKey × CAddressUnspentValue) :=
  addressUnspentIndex.readFrom db.entries (unspentSeekKey addressHash type)
    (fun key => key.hashBytes = addressHash) unspentOutputs

/-! ### What a read returns -/

namespace Index

variable {K V : Type} {I : Index K V} {entries : Entries}

theorem getKey_key {k : K} (h : I.Typed k) : I.getKey (I.key k) = some (I.prefixByte, k) := by
  have hreads : Reads (do let first ← next; let second ← I.read; pure (first, second))
      (I.key k) (I.prefixByte, k) :=
    (Reads.next I.prefixByte).bind ((I.reads h).bind_pure fun second => (I.prefixByte, second))
  have hall := hreads []
  rw [List.append_nil] at hall
  rw [getKey, hall]
  rfl

theorem head?_of_getKey {bytes : List UInt8} {first : UInt8} {second : K}
    (h : I.getKey bytes = some (first, second)) : bytes.head? = some first := by
  cases bytes with
  | nil => exact absurd h (by simp [getKey, next, bind, StateT.bind])
  | cons b bytes =>
    obtain ⟨p, hp, hfirst⟩ := Option.map_eq_some_iff.mp h
    obtain ⟨r, -, hp⟩ := Option.bind_eq_some_iff.mp hp
    obtain rfl : ((b, r.1), r.2) = p := Option.some.inj hp
    exact congrArg (fun p => some p.1) hfirst

def stays (I : Index K V) (stay : K → Bool) (e : List UInt8 × List UInt8) : Bool :=
  (I.getKey e.1).any fun p => p.1 = I.prefixByte ∧ stay p.2

/-- What the loop takes of an entry. -/
def decode (I : Index K V) (e : List UInt8 × List UInt8) : Option (K × V) :=
  (I.getKey e.1).bind fun p => (I.getValue e.2).map fun v => (p.2, v)

theorem exists_of_stays (hreadable : I.Readable entries) {stay : K → Bool}
    {e : List UInt8 × List UInt8} (he : e ∈ entries) (h : I.stays stay e = true) :
    ∃ k v, I.Typed k ∧ e.1 = I.key k ∧ stay k = true ∧ I.getValue e.2 = some v ∧
      I.decode e = some (k, v) := by
  obtain ⟨p, hp, hstay⟩ : ∃ p, I.getKey e.1 = some p ∧
      decide (p.1 = I.prefixByte ∧ stay p.2) = true := by
    unfold stays at h
    cases hp : I.getKey e.1 with
    | none => rw [hp] at h; exact absurd h Bool.false_ne_true
    | some p => rw [hp] at h; exact ⟨p, rfl, h⟩
  obtain ⟨hfirst, htest⟩ := of_decide_eq_true hstay
  obtain ⟨k, v, htyped, hkey, hvalue⟩ := hreadable e he (by
    rw [← hfirst]
    exact head?_of_getKey hp)
  have hk : I.getKey e.1 = some (I.prefixByte, k) := hkey ▸ getKey_key htyped
  obtain rfl : (I.prefixByte, k) = p := Option.some.inj (hk.symm.trans hp)
  refine ⟨k, v, htyped, hkey, htest, hvalue, ?_⟩
  rw [decode, hk, hvalue]
  rfl

theorem stays_key {stay : K → Bool} {k : K} {bytes : List UInt8} (htyped : I.Typed k) :
    I.stays stay (I.key k, bytes) = stay k := by
  rw [stays, getKey_key htyped]
  simp

theorem readLoop_eq {stay : K → Bool} : ∀ {cursor : Entries} {out : List (K × V)},
    I.Readable cursor → I.readLoop stay cursor out =
      (true, out ++ (cursor.takeWhile (I.stays stay)).filterMap I.decode) := by
  intro cursor
  induction cursor with
  | nil => exact fun _ => by simp [readLoop]
  | cons e cursor ih =>
    intro out hreadable
    have hrest : I.Readable cursor := fun e' he' => hreadable e' (List.mem_cons_of_mem _ he')
    rw [List.takeWhile_cons]
    by_cases hstays : I.stays stay e = true
    · obtain ⟨k, v, htyped, hkey, htest, hvalue, hdecode⟩ :=
        exists_of_stays hreadable List.mem_cons_self hstays
      have hk : I.getKey e.1 = some (I.prefixByte, k) := hkey ▸ getKey_key htyped
      have hstep : I.readLoop stay (e :: cursor) out = I.readLoop stay cursor (out ++ [(k, v)]) := by
        simp [readLoop, hk, htest, hvalue]
      rw [hstep, ih hrest, if_pos hstays, List.filterMap_cons_some hdecode, List.append_assoc]
      rfl
    · have hstop : I.readLoop stay (e :: cursor) out = (true, out) := by
        cases hk : I.getKey e.1 with
        | none => simp [readLoop, hk]
        | some p =>
          have htest : ¬ (p.1 = I.prefixByte ∧ stay p.2 = true) := by
            intro htest
            apply hstays
            rw [stays, hk]
            exact decide_eq_true htest
          simp only [readLoop, hk, if_neg htest]
      rw [hstop, if_neg hstays, List.filterMap_nil, List.append_nil]

theorem key_injective {k k' : K} (h : I.Typed k) (h' : I.Typed k') (heq : I.key k = I.key k') :
    k = k' := by
  have hkeys := (getKey_key h).symm.trans ((congrArg I.getKey heq).trans (getKey_key h'))
  exact congrArg Prod.snd (Option.some.inj hkeys)

theorem mem_readFrom (hsorted : KeyScans.Sorted entries) (hreadable : I.Readable entries)
    (seekKey : List UInt8) (stay : K → Bool) (out : List (K × V)) :
    ∃ new, I.readFrom entries (I.prefixByte :: seekKey) stay out = (true, out ++ new) ∧
      new.Nodup ∧ ∀ k v, (k, v) ∈ new ↔ I.Holds entries k v ∧ I.prefixByte :: seekKey ≤ I.key k ∧
        ∀ k' v', I.Holds entries k' v' → I.prefixByte :: seekKey ≤ I.key k' →
          I.key k' ≤ I.key k → stay k' = true := by
  have hcursor : ∀ {e}, e ∈ KeyScans.seek (I.prefixByte :: seekKey) entries → e ∈ entries :=
    fun he => ((KeyScans.mem_seek hsorted).mp he).1
  have hstays : ∀ {e}, e ∈ (KeyScans.seek (I.prefixByte :: seekKey) entries).takeWhile
      (I.stays stay) → e ∈ entries ∧ I.stays stay e = true := by
    intro e he
    obtain ⟨hmem, hle, hall⟩ := (KeyScans.mem_scan hsorted).mp he
    exact ⟨hmem, hall e hmem hle (Std.le_refl _)⟩
  refine ⟨_, readLoop_eq fun e he => hreadable e (hcursor he), ?_, ?_⟩
  · -- different entries have different keys
    refine List.pairwise_filterMap.mpr ?_
    refine ((hsorted.seek _).sublist (List.takeWhile_sublist _)).imp_of_mem ?_
    intro e e' he he' hlt p hp p' hp' heq
    obtain ⟨k, v, -, hkey, -, -, hdecode⟩ := exists_of_stays hreadable (hstays he).1 (hstays he).2
    obtain ⟨k', v', -, hkey', -, -, hdecode'⟩ :=
      exists_of_stays hreadable (hstays he').1 (hstays he').2
    obtain rfl := Option.some.inj (hdecode.symm.trans hp)
    obtain rfl := Option.some.inj (hdecode'.symm.trans hp')
    rw [hkey, hkey', (Prod.mk.inj heq).1] at hlt
    exact Std.lt_irrefl hlt
  · intro k v
    rw [List.mem_filterMap]
    constructor
    · rintro ⟨e, he, hdecode⟩
      obtain ⟨hmem, hle, hall⟩ := (KeyScans.mem_scan hsorted).mp he
      obtain ⟨k₀, v₀, htyped, hkey, -, hvalue, hdecode₀⟩ :=
        exists_of_stays hreadable hmem (hstays he).2
      obtain ⟨rfl, rfl⟩ := Prod.mk.inj (Option.some.inj (hdecode₀.symm.trans hdecode))
      refine ⟨⟨htyped, e.2, hkey ▸ hmem, hvalue⟩, hkey ▸ hle, ?_⟩
      rintro k' v' ⟨htyped', bytes', hmem', -⟩ hle' hbefore
      have hstay := hall (I.key k', bytes') hmem' hle' (hkey ▸ hbefore)
      rwa [stays_key htyped'] at hstay
    · rintro ⟨⟨htyped, bytes, hmem, hvalue⟩, hle, hall⟩
      refine ⟨(I.key k, bytes), (KeyScans.mem_scan hsorted).mpr ⟨hmem, hle, ?_⟩, ?_⟩
      · intro e' he' hle' hbefore
        -- what lies in between has the prefix of the index
        obtain ⟨rest, hrest⟩ : [I.prefixByte] <+: e'.1 :=
          KeyScans.prefix_of_between (a := seekKey) (b := I.write k) hle' hbefore
        obtain ⟨k', v', htyped', hkey', hvalue'⟩ := hreadable e' he' (by rw [← hrest]; rfl)
        have hstay := hall k' v' ⟨htyped', e'.2, hkey' ▸ he', hvalue'⟩ (hkey' ▸ hle')
          (hkey' ▸ hbefore)
        rw [show e' = (I.key k', e'.2) from Prod.ext hkey' rfl, stays_key htyped']
        exact hstay
      · rw [decode, getKey_key htyped, Option.bind_some, hvalue]
        rfl

/-! ### The scan of an address -/

/-- The key that a read seeks: an address, and what it adds to it. -/
def addressKey (I : Index K V) (type : ℕ) (addressHash : UInt160) (low : List UInt8) : List UInt8 :=
  I.prefixByte :: (iteratorKey type addressHash ++ low)

section Order

variable {type : ℕ} {addressHash : UInt160} {low : List UInt8} {k k' : K}

theorem writeLE_one (n : ℕ) : writeLE 1 n = [UInt8.ofNat (n % 256)] := rfl

theorem toNat_typeByte {n : ℕ} (h : n < 256) : (UInt8.ofNat (n % 256)).toNat = n := by
  rw [Nat.mod_eq_of_lt h]
  exact UInt8.toNat_ofNat_of_lt h

theorem exists_key (k : K) : ∃ rest, I.key k = I.addressKey (I.type k) (I.hashBytes k) rest := by
  obtain ⟨rest, hrest⟩ := I.write_address k
  exact ⟨rest, congrArg (I.prefixByte :: ·) hrest.symm⟩

theorem addressKey_lt (htyped : I.Typed k) (h : type < I.type k) :
    I.addressKey type addressHash low < I.key k := by
  obtain ⟨rest, hrest⟩ := I.exists_key k
  have hk := I.type_lt htyped
  rw [hrest]
  refine List.cons_lt_cons_iff.mpr (.inr ⟨rfl, List.cons_lt_cons_iff.mpr (.inl ?_)⟩)
  rw [UInt8.lt_iff_toNat_lt, toNat_typeByte hk, toNat_typeByte (h.trans hk)]
  exact h

theorem type_le (htype : type < 256) (htyped : I.Typed k)
    (h : I.addressKey type addressHash low ≤ I.key k) : type ≤ I.type k := by
  obtain ⟨rest, hrest⟩ := I.exists_key k
  have hk := I.type_lt htyped
  refine Nat.le_of_not_lt fun hlt => ?_
  refine h (hrest ▸ List.cons_lt_cons_iff.mpr (.inr ⟨rfl, List.cons_lt_cons_iff.mpr (.inl ?_)⟩))
  rw [UInt8.lt_iff_toNat_lt, toNat_typeByte hk, toNat_typeByte htype]
  exact hlt

theorem address_of_prefix (htype : type < 256) (htyped : I.Typed k)
    (h : I.addressKey type addressHash [] <+: I.key k) :
    I.type k = type ∧ I.hashBytes k = addressHash := by
  obtain ⟨rest, hrest⟩ := I.exists_key k
  have hprefix : I.addressKey (I.type k) (I.hashBytes k) [] <+: I.key k := by
    rw [hrest, addressKey, addressKey, List.append_nil]
    exact List.cons_prefix_cons.mpr ⟨rfl, List.prefix_append _ _⟩
  have hlength : ∀ (t : ℕ) (a : UInt160), (I.addressKey t a []).length = 22 := by
    intro t a
    simp [addressKey, iteratorKey, length_writeLE, a.size_eq]
  have heq := List.prefix_of_prefix_length_le h hprefix (by rw [hlength, hlength])
  have heq' := heq.eq_of_length (by rw [hlength, hlength])
  simp only [addressKey, iteratorKey, List.append_nil, List.cons.injEq, true_and, writeLE_one,
    List.cons_append, List.nil_append] at heq'
  have hbyte := congrArg UInt8.toNat heq'.1
  rw [toNat_typeByte htype, toNat_typeByte (I.type_lt htyped)] at hbyte
  refine ⟨hbyte.symm, ?_⟩
  rw [← (I.hashBytes k).ofBytes_bytes, ← heq'.2, addressHash.ofBytes_bytes]

theorem address_of_between (htype : type < 256) (htyped : I.Typed k')
    (haddress : I.type k = type ∧ I.hashBytes k = addressHash)
    (h : I.addressKey type addressHash low ≤ I.key k') (h' : I.key k' ≤ I.key k) :
    I.type k' = type ∧ I.hashBytes k' = addressHash := by
  obtain ⟨rest, hrest⟩ := I.exists_key k
  rw [haddress.1, haddress.2] at hrest
  have hsplit : ∀ bytes, I.addressKey type addressHash bytes =
      I.addressKey type addressHash [] ++ bytes := by
    intro bytes
    simp [addressKey]
  rw [hsplit] at h
  rw [hrest, hsplit] at h'
  exact address_of_prefix htype htyped (KeyScans.prefix_of_between h h')

end Order

/-- Every key of a greater type at which the scan would stay stands behind one, from the key that is
sought on, at which it does not. -/
def Separated (I : Index K V) (entries : Entries) (type : ℕ) (addressHash : UInt160)
    (low : List UInt8) (above : K → Prop) : Prop :=
  ∀ k v, I.Holds entries k v → type < I.type k → I.hashBytes k = addressHash → ¬ above k →
    ∃ k' v', I.Holds entries k' v' ∧ I.addressKey type addressHash low ≤ I.key k' ∧
      I.key k' < I.key k ∧ (I.hashBytes k' ≠ addressHash ∨ above k')

/-- **The scan of an address** returns the keys of the address that are in its range, and no others
exactly when these are separated from those of the greater types. -/
theorem read_address (hsorted : KeyScans.Sorted entries) (hreadable : I.Readable entries)
    {type : ℕ} (htype : type < 256) (addressHash : UInt160) (low : List UInt8) (above : K → Prop)
    [DecidablePred above]
    (habove : ∀ k k', I.type k = type ∧ I.hashBytes k = addressHash → I.Typed k → I.Typed k' →
      I.type k' = type ∧ I.hashBytes k' = addressHash → I.key k' ≤ I.key k → above k' → above k)
    (out : List (K × V)) :
    ∃ new, I.readFrom entries (I.addressKey type addressHash low)
        (fun k => I.hashBytes k = addressHash ∧ ¬ above k) out = (true, out ++ new) ∧ new.Nodup ∧
      (∀ k v, I.type k = type ∧ I.hashBytes k = addressHash →
        ((k, v) ∈ new ↔ I.Holds entries k v ∧ I.addressKey type addressHash low ≤ I.key k ∧
          ¬ above k)) ∧
      ((∀ k v, (k, v) ∈ new → I.Holds entries k v ∧ I.type k = type ∧
        I.hashBytes k = addressHash) ↔ I.Separated entries type addressHash low above) := by
  obtain ⟨new, hread, hnodup, hmem⟩ := mem_readFrom hsorted hreadable
    (iteratorKey type addressHash ++ low)
    (fun k => I.hashBytes k = addressHash ∧ ¬ above k) out
  simp only [decide_eq_true_eq] at hmem
  refine ⟨new, hread, hnodup, ?_, ?_⟩
  · intro k v haddress
    rw [hmem]
    refine and_congr_right fun hholds => and_congr_right fun hle => ?_
    constructor
    · exact fun hall => (hall k v hholds hle (Std.le_refl _)).2
    · intro hnot k' v' hholds' hle' hbefore
      have haddress' := address_of_between htype hholds'.1 haddress hle' hbefore
      exact ⟨haddress'.2,
        fun hab => hnot (habove k k' haddress hholds.1 hholds'.1 haddress' hbefore hab)⟩
  · constructor
    · -- otherwise the scan would reach the key of a greater type
      intro hexact k v hholds hlt hhash hnot
      refine Classical.byContradiction fun hno => ?_
      have hin : (k, v) ∈ new := by
        refine (hmem k v).mpr ⟨hholds, Std.le_of_lt (addressKey_lt hholds.1 hlt), ?_⟩
        intro k' v' hholds' hle' hbefore
        by_cases heq : I.key k' = I.key k
        · obtain rfl := key_injective hholds'.1 hholds.1 heq
          exact ⟨hhash, hnot⟩
        · refine Classical.byContradiction fun hstop => hno ⟨k', v', hholds', hle',
            Std.lt_of_le_of_ne hbefore heq, ?_⟩
          by_cases hhash' : I.hashBytes k' = addressHash
          · exact .inr (Classical.byContradiction fun hab => hstop ⟨hhash', hab⟩)
          · exact .inl hhash'
      exact hlt.ne' (hexact k v hin).2.1
    · intro hseparated k v hin
      obtain ⟨hholds, hle, hall⟩ := (hmem k v).mp hin
      obtain ⟨hhash, hnot⟩ := hall k v hholds hle (Std.le_refl _)
      refine ⟨hholds, ?_, hhash⟩
      rcases (type_le htype hholds.1 hle).eq_or_lt with heq | hlt
      · exact heq.symm
      · obtain ⟨k', v', hholds', hle', hbefore, hstop⟩ := hseparated k v hholds hlt hhash hnot
        obtain ⟨hhash', hnot'⟩ := hall k' v' hholds' hle' (Std.le_of_lt hbefore)
        exact absurd hstop (not_or.mpr ⟨not_not_intro hhash', hnot'⟩)

end Index

/-! ### The two reads -/

variable (db : AddressDB)

/-- The heights that were asked for. -/
def InRange (start stop : ℤ) (k : CAddressIndexKey) : Prop :=
  start = 0 ∧ stop = 0 ∨ start ≤ k.blockHeight ∧ k.blockHeight ≤ stop

/-- `ReadAddressIndex` returns the entries of the address in the range, each once. -/
def AddressExact (addressHash : UInt160) (type : ℕ) (start stop : ℤ) : Prop :=
  ∀ out, ∃ new, readAddressIndex db addressHash type out start stop = (true, out ++ new) ∧
    new.Nodup ∧ ∀ k v, (k, v) ∈ new ↔ addressIndex.Holds db.entries k v ∧ k.type = type ∧
      k.hashBytes = addressHash ∧ InRange start stop k

/-- `ReadAddressUnspentIndex` returns the entries of the address, each once. -/
def UnspentExact (addressHash : UInt160) (type : ℕ) : Prop :=
  ∀ out, ∃ new, readAddressUnspentIndex db addressHash type out = (true, out ++ new) ∧
    new.Nodup ∧ ∀ k v, (k, v) ∈ new ↔ addressUnspentIndex.Holds db.entries k v ∧ k.type = type ∧
      k.hashBytes = addressHash

/-- What a read of a range adds to the key of the address. -/
def lowKey (start stop : ℤ) : List UInt8 :=
  if 0 < start ∧ 0 < stop then writeBE 4 (start % 256 ^ 4).toNat else []

theorem addressSeekKey_eq (addressHash : UInt160) (type : ℕ) (start stop : ℤ) :
    addressSeekKey addressHash type start stop =
      addressIndex.addressKey type addressHash (lowKey start stop) := by
  unfold addressSeekKey lowKey Index.addressKey
  split
  · rfl
  · rw [List.append_nil]

theorem exists_height {k : CAddressIndexKey} (hk : k.Typed) :
    ∃ n rest, k.blockHeight = (n : ℕ) ∧ n < 256 ^ 4 ∧ addressIndex.key k =
      addressIndex.addressKey k.type k.hashBytes [] ++ (writeBE 4 n ++ rest) := by
  obtain ⟨n, hn⟩ := Int.eq_ofNat_of_zero_le hk.blockHeight.1
  have hlt := hk.blockHeight.2
  rw [hn] at hlt
  have hmod : (k.blockHeight % 256 ^ 4).toNat = n := by
    rw [hn]
    omega
  refine ⟨n, writeBE 4 k.txindex ++ (writeHash k.txhash ++ (writeLE 4 k.index ++
    writeLE 1 (if k.spending then 1 else 0))), hn, by omega, ?_⟩
  rw [← hmod]
  simp [Index.key, Index.addressKey, addressIndex, CAddressIndexKey.write, iteratorKey]

theorem addressKey_le_iff {k : CAddressIndexKey} (hk : k.Typed) {n : ℤ}
    (hn : 0 ≤ n ∧ 2 * n < 256 ^ 4) :
    addressIndex.addressKey k.type k.hashBytes (writeBE 4 (n % 256 ^ 4).toNat) ≤
      addressIndex.key k ↔ n ≤ k.blockHeight := by
  obtain ⟨m, hm⟩ := Int.eq_ofNat_of_zero_le hn.1
  have hlt := hn.2
  rw [hm] at hlt
  have hmod : (n % 256 ^ 4).toNat = m := by
    rw [hm]
    omega
  have hm' : m < 256 ^ 4 := by omega
  obtain ⟨h, rest, hheight, hh, hkey⟩ := exists_height hk
  have hsplit : addressIndex.addressKey k.type k.hashBytes (writeBE 4 m) =
      addressIndex.addressKey k.type k.hashBytes [] ++ writeBE 4 m := by
    simp [Index.addressKey]
  rw [hmod, hkey, hsplit, KeyScans.append_le_append_iff, hm, hheight, Int.ofNat_le]
  constructor
  · intro hle
    have hle' : writeBE 4 m ++ [] ≤ writeBE 4 h ++ rest := by rwa [List.append_nil]
    have hbytes := le_of_writeBE_le hle'
    rwa [Nat.mod_eq_of_lt hm', Nat.mod_eq_of_lt hh] at hbytes
  · intro hle hafter
    have hafter' : writeBE 4 h ++ rest ≤ writeBE 4 m ++ [] := by
      rw [List.append_nil]
      exact Std.le_of_lt hafter
    have hbytes := le_of_writeBE_le hafter'
    rw [Nat.mod_eq_of_lt hm', Nat.mod_eq_of_lt hh] at hbytes
    -- the same height, but then the key cannot be the lesser one
    obtain rfl := Nat.le_antisymm hle hbytes
    exact absurd hafter (List.not_lt.mpr List.le_append_left)

theorem height_le_of_key_le {k k' : CAddressIndexKey} (hk : k.Typed) (hk' : k'.Typed)
    (htype : k.type = k'.type) (hhash : k.hashBytes = k'.hashBytes)
    (h : addressIndex.key k' ≤ addressIndex.key k) : k'.blockHeight ≤ k.blockHeight := by
  obtain ⟨n, rest, hn, hlt, hkey⟩ := exists_height hk
  obtain ⟨n', rest', hn', hlt', hkey'⟩ := exists_height hk'
  rw [hkey, hkey', htype, hhash, KeyScans.append_le_append_iff] at h
  have hbytes := le_of_writeBE_le h
  rw [Nat.mod_eq_of_lt hlt, Nat.mod_eq_of_lt hlt'] at hbytes
  rw [hn, hn']
  exact Int.ofNat_le.mpr hbytes

/-- The scan of the addresses stops in time. -/
def AddressSeparated (addressHash : UInt160) (type : ℕ) (start stop : ℤ) : Prop :=
  addressIndex.Separated db.entries type addressHash (lowKey start stop)
    fun k => 0 < stop ∧ stop < k.blockHeight

/-- The scan of the unspent outputs stops in time. -/
def UnspentSeparated (addressHash : UInt160) (type : ℕ) : Prop :=
  addressUnspentIndex.Separated db.entries type addressHash [] fun _ => False

theorem addressKey_le_key {K V : Type} {I : Index K V} {k : K} {type : ℕ} {addressHash : UInt160}
    (haddress : I.type k = type ∧ I.hashBytes k = addressHash) :
    I.addressKey type addressHash [] ≤ I.key k := by
  obtain ⟨rest, hrest⟩ := I.exists_key k
  rw [haddress.1, haddress.2] at hrest
  have hprefix : I.addressKey type addressHash [] <+: I.key k :=
    ⟨rest, by simp [hrest, Index.addressKey]⟩
  exact hprefix.le

theorem unspentExact_iff {type : ℕ} (htype : type < 256) (addressHash : UInt160) :
    UnspentExact db addressHash type ↔ UnspentSeparated db addressHash type := by
  have hread := addressUnspentIndex.read_address db.sorted db.unspents htype addressHash []
    (fun _ => False) (fun _ _ _ _ _ _ _ h => h)
  have hseek : unspentSeekKey addressHash type =
      addressUnspentIndex.addressKey type addressHash [] := by
    simp [unspentSeekKey, Index.addressKey]
  have htest : (fun k => decide (addressUnspentIndex.hashBytes k = addressHash ∧ ¬ False)) =
      fun key : CAddressUnspentKey => decide (key.hashBytes = addressHash) := by
    funext key
    simp [addressUnspentIndex]
  unfold UnspentExact UnspentSeparated readAddressUnspentIndex
  rw [hseek]
  constructor
  · intro hexact
    obtain ⟨new, hnew, -, hmem⟩ := hexact []
    obtain ⟨new', hnew', -, -, hiff⟩ := hread []
    rw [htest, hnew] at hnew'
    obtain rfl : new = new' := (Prod.mk.inj hnew').2
    exact hiff.mp fun k v hin => (hmem k v).mp hin
  · intro hseparated out
    obtain ⟨new, hnew, hnodup, hmem, hiff⟩ := hread out
    rw [htest] at hnew
    refine ⟨new, hnew, hnodup, fun k v => ⟨hiff.mpr hseparated k v, fun ⟨hholds, haddress⟩ => ?_⟩⟩
    exact (hmem k v haddress).mpr ⟨hholds, addressKey_le_key haddress, not_false⟩

theorem lowKey_le_iff {k : CAddressIndexKey} (hk : k.Typed) {type : ℕ} {addressHash : UInt160}
    (haddress : k.type = type ∧ k.hashBytes = addressHash) {start stop : ℤ}
    (hstart : 0 ≤ start ∧ 2 * start < 256 ^ 4) :
    addressIndex.addressKey type addressHash (lowKey start stop) ≤ addressIndex.key k ↔
      (0 < start ∧ 0 < stop → start ≤ k.blockHeight) := by
  unfold lowKey
  by_cases hrange : 0 < start ∧ 0 < stop
  · rw [if_pos hrange, ← haddress.1, ← haddress.2, addressKey_le_iff hk hstart]
    exact ⟨fun h _ => h, fun h => h hrange⟩
  · rw [if_neg hrange]
    exact ⟨fun _ h => absurd h hrange, fun _ => addressKey_le_key haddress⟩

theorem addressExact_iff {type : ℕ} (htype : type < 256) (addressHash : UInt160) {start stop : ℤ}
    (hstart : 0 ≤ start ∧ 2 * start < 256 ^ 4) (hstop : 0 ≤ stop) :
    AddressExact db addressHash type start stop ↔
      (start = 0 ∨ 0 < stop ∨ ∀ k v, addressIndex.Holds db.entries k v →
        ¬ (k.type = type ∧ k.hashBytes = addressHash)) ∧
      AddressSeparated db addressHash type start stop := by
  have hread := addressIndex.read_address db.sorted db.addresses htype addressHash
    (lowKey start stop) (fun k => 0 < stop ∧ stop < k.blockHeight)
    (fun k k' h hk hk' h' hle hab => ⟨hab.1, hab.2.trans_le
      (height_le_of_key_le hk hk' (h.1.trans h'.1.symm) (h.2.trans h'.2.symm) hle)⟩)
  -- what the scan takes of the address is what was asked for, unless there is no upper bound
  have hrange : ∀ k : CAddressIndexKey, k.Typed → start = 0 ∨ 0 < stop →
      k.type = type ∧ k.hashBytes = addressHash →
      (addressIndex.addressKey type addressHash (lowKey start stop) ≤ addressIndex.key k ∧
        ¬ (0 < stop ∧ stop < k.blockHeight) ↔ InRange start stop k) := by
    intro k hk hbounds haddress
    rw [lowKey_le_iff hk haddress hstart, InRange]
    have hheight := hk.blockHeight.1
    omega
  unfold AddressExact AddressSeparated readAddressIndex
  rw [addressSeekKey_eq]
  constructor
  · intro hexact
    obtain ⟨new, hnew, -, hmem⟩ := hexact []
    obtain ⟨new', hnew', -, hown, hiff⟩ := hread []
    obtain rfl : new = new' := (Prod.mk.inj (hnew.symm.trans hnew')).2
    refine ⟨?_, hiff.mp fun k v hin => ⟨((hmem k v).mp hin).1, ((hmem k v).mp hin).2.1,
      ((hmem k v).mp hin).2.2.1⟩⟩
    by_cases hbounds : start = 0 ∨ 0 < stop
    · exact hbounds.imp_right Or.inl
    · -- everything of the address is returned, but nothing was asked for
      refine .inr (.inr fun k v hholds haddress => ?_)
      have hle : addressIndex.addressKey type addressHash (lowKey start stop) ≤
          addressIndex.key k :=
        (lowKey_le_iff hholds.1 haddress hstart).mpr (fun h => absurd (.inr h.2) hbounds)
      have hin := (hown k v haddress).mpr ⟨hholds, hle, fun h => hbounds (.inr h.1)⟩
      have hin' := ((hmem k v).mp hin).2.2.2
      have hheight := hholds.1.blockHeight.1
      unfold InRange at hin'
      omega
  · rintro ⟨hbounds, hseparated⟩ out
    obtain ⟨new, hnew, hnodup, hown, hiff⟩ := hread out
    have hall := hiff.mpr hseparated
    refine ⟨new, hnew, hnodup, fun k v => ?_⟩
    by_cases hb : start = 0 ∨ 0 < stop
    · constructor
      · intro hin
        obtain ⟨hholds, haddress⟩ := hall k v hin
        exact ⟨hholds, haddress.1, haddress.2,
          (hrange k hholds.1 hb haddress).mp ((hown k v haddress).mp hin).2⟩
      · rintro ⟨hholds, htype', hhash, hin⟩
        exact (hown k v ⟨htype', hhash⟩).mpr
          ⟨hholds, (hrange k hholds.1 hb ⟨htype', hhash⟩).mpr hin⟩
    · have hnone : ∀ k v, addressIndex.Holds db.entries k v →
          ¬ (k.type = type ∧ k.hashBytes = addressHash) := by
        rcases hbounds with h | h | h
        · exact absurd (.inl h) hb
        · exact absurd (.inr h) hb
        · exact h
      exact ⟨fun hin => absurd (hall k v hin).2 (hnone k v (hall k v hin).1),
        fun h => absurd ⟨h.2.1, h.2.2.1⟩ (hnone k v h.1)⟩

/-- **The reads of the address indexes** are exact as long as their scans stop in time. -/
theorem addressReads_exact_iff {type : ℕ} (htype : type < 256) (addressHash : UInt160)
    {start stop : ℤ} (hstart : 0 ≤ start ∧ 2 * start < 256 ^ 4) (hstop : 0 ≤ stop) :
    (AddressExact db addressHash type start stop ↔
      (start = 0 ∨ 0 < stop ∨ ∀ k v, addressIndex.Holds db.entries k v →
        ¬ (k.type = type ∧ k.hashBytes = addressHash)) ∧
      AddressSeparated db addressHash type start stop) ∧
    (UnspentExact db addressHash type ↔ UnspentSeparated db addressHash type) :=
  ⟨addressExact_iff db htype addressHash hstart hstop, unspentExact_iff db htype addressHash⟩

/-! ### One hash under two types -/

/-- An output to a hash, as the hash of a public key or of a script. -/
def keyUnder (type : ℕ) : CAddressIndexKey := ⟨type, .null, 5, 0, 0, 0, false⟩

theorem typed_keyUnder {type : ℕ} (h : type < 256) : (keyUnder type).Typed :=
  ⟨h, show (0 : ℤ) ≤ 5 ∧ 2 * (5 : ℤ) < 256 ^ 4 by decide, show 0 < 256 ^ 4 by decide,
    show 0 < 256 ^ 4 by decide⟩

/-- One output to a public key hash, and one to the script hash with the same bytes. -/
def twoTypes : AddressDB where
  entries := [(addressIndex.key (keyUnder 1), writeInt 8 100),
    (addressIndex.key (keyUnder 2), writeInt 8 200)]
  sorted := List.pairwise_pair.mpr (by decide)
  addresses := by
    intro e he _
    rcases List.mem_pair.mp he with rfl | rfl
    · exact ⟨keyUnder 1, 100, typed_keyUnder (by decide), rfl, by decide⟩
    · exact ⟨keyUnder 2, 200, typed_keyUnder (by decide), rfl, by decide⟩
  unspents := by
    intro e he hprefix
    rcases List.mem_pair.mp he with rfl | rfl
    · exact absurd hprefix (by decide)
    · exact absurd hprefix (by decide)

theorem addressReads_exact_iff_twoTypes :
    (AddressExact twoTypes .null 2 1 9 ↔
      ((1 : ℤ) = 0 ∨ (0 : ℤ) < 9 ∨ ∀ k v, addressIndex.Holds twoTypes.entries k v →
        ¬ (k.type = 2 ∧ k.hashBytes = .null)) ∧
      AddressSeparated twoTypes .null 2 1 9) ∧
    (UnspentExact twoTypes .null 2 ↔ UnspentSeparated twoTypes .null 2) :=
  addressReads_exact_iff twoTypes (by decide) .null ⟨by decide, by decide⟩ (by decide)

theorem readAddressIndex_twoTypes : readAddressIndex twoTypes .null 1 [] 0 0 =
    (true, [(keyUnder 1, 100), (keyUnder 2, 200)]) := by
  decide +kernel

theorem other_type_returned : ¬ AddressExact twoTypes .null 1 0 0 := by
  intro hexact
  obtain ⟨new, hnew, -, hmem⟩ := hexact []
  obtain rfl : [(keyUnder 1, 100), (keyUnder 2, 200)] = new :=
    (Prod.mk.inj (readAddressIndex_twoTypes.symm.trans hnew)).2
  have htype := ((hmem (keyUnder 2) 200).mp (List.mem_cons_of_mem _ List.mem_cons_self)).2.1
  exact absurd htype (by decide)

end Stonecoin
