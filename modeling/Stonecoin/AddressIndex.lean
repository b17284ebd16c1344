/-
The address, address-unspent and spent indexes of the block tree database (`main.h`,
`spentindex.h`, `txdb.cpp`): keys, values, and the batches written to them.

A batch is applied in its order.  `UpdateSpentIndex` and `UpdateAddressUnspentIndex`
erase the key of a null value and write any other value.
-/
import Stonecoin.Transaction
import Mathlib.Data.List.Nodup
import Mathlib.Logic.Function.Basic

namespace Stonecoin

/-! ### Keys and values -/

structure CAddressUnspentKey where
  type : ℕ
  hashBytes : UInt160
  txhash : UInt256
  index : ℕ
deriving DecidableEq, Repr

structure CAddressUnspentValue where
  satoshis : ℤ
  script : CScript
  blockHeight : ℤ
deriving DecidableEq, Repr

def CAddressUnspentValue.null : CAddressUnspentValue := ⟨-1, [], 0⟩

def CAddressUnspentValue.isNull (v : CAddressUnspentValue) : Bool := v.satoshis = -1

structure CAddressIndexKey where
  type : ℕ
  hashBytes : UInt160
  blockHeight : ℤ
  txindex : ℕ
  txhash : UInt256
  index : ℕ
  spending : Bool
deriving DecidableEq, Repr

structure CSpentIndexKey where
  txid : UInt256
  outputIndex : ℕ
deriving DecidableEq, Repr

structure CSpentIndexValue where
  txid : UInt256
  inputIndex : ℕ
  blockHeight : ℤ
  satoshis : ℤ
  addressType : ℕ
  addressHash : UInt160
deriving DecidableEq, Repr

def CSpentIndexValue.null : CSpentIndexValue := ⟨0, 0, 0, 0, 0, .null⟩

def CSpentIndexValue.isNull (v : CSpentIndexValue) : Bool := v.txid = 0

/-- The address type and hash of an output script: 2 for a script hash, 1 for a public
key hash, none for any other script. -/
def scriptAddress (s : CScript) : Option (ℕ × UInt160) :=
  if isPayToScriptHash s then some (2, .ofBytes ((s.drop 2).take 20))
  else if isPayToPublicKeyHash s then some (1, .ofBytes ((s.drop 3).take 20))
  else none

/-! ### The database -/

structure CBlockTreeDB where
  addressIndex : CAddressIndexKey → Option ℤ
  addressUnspentIndex : CAddressUnspentKey → Option CAddressUnspentValue
  spentIndex : CSpentIndexKey → Option CSpentIndexValue

section Batch

variable {K V : Type*} [DecidableEq K]

/-- A `CDBBatch`: each key is written, or erased if there is no value. -/
def applyBatch (m : K → Option V) (batch : List (K × Option V)) : K → Option V :=
  batch.foldl (fun m e => Function.update m e.1 e.2) m

theorem applyBatch_append (m : K → Option V) (b b' : List (K × Option V)) :
    applyBatch m (b ++ b') = applyBatch (applyBatch m b) b' :=
  List.foldl_append

theorem applyBatch_of_notMem {batch : List (K × Option V)} :
    ∀ (m : K → Option V) {k : K}, k ∉ batch.map Prod.fst → applyBatch m batch k = m k := by
  induction batch with
  | nil => intro m k _; rfl
  | cons e b ih =>
    intro m k hk
    simp only [List.map_cons, List.mem_cons, not_or] at hk
    show applyBatch (Function.update m e.1 e.2) b k = m k
    rw [ih _ hk.2, Function.update_of_ne hk.1]

theorem applyBatch_of_unique {batch : List (K × Option V)} :
    ∀ (m : K → Option V) {k : K} {o : Option V}, (k, o) ∈ batch →
      (∀ o', (k, o') ∈ batch → o' = o) → applyBatch m batch k = o := by
  induction batch with
  | nil => intro m k o h; cases h
  | cons e b ih =>
    intro m k o hmem huniq
    show applyBatch (Function.update m e.1 e.2) b k = o
    by_cases hb : ∃ o', (k, o') ∈ b
    · obtain ⟨o', ho'⟩ := hb
      obtain rfl := huniq o' (List.mem_cons_of_mem _ ho')
      exact ih _ ho' fun o'' h => huniq o'' (List.mem_cons_of_mem _ h)
    · have hk : k ∉ b.map Prod.fst := by
        intro hk
        obtain ⟨⟨k', o'⟩, hm, rfl⟩ := List.mem_map.mp hk
        exact hb ⟨o', hm⟩
      rw [applyBatch_of_notMem _ hk]
      rcases List.mem_cons.mp hmem with rfl | h
      · simp
      · exact absurd ⟨o, h⟩ hb

theorem applyBatch_erase_eq_iff (m : K → Option V) {b e : List (K × Option V)}
    (hsub : ∀ k ∈ b.map Prod.fst, k ∈ e.map Prod.fst)
    (herase : ∀ k ∈ e.map Prod.fst, applyBatch (applyBatch m b) e k = none) :
    applyBatch (applyBatch m b) e = m ↔ ∀ k ∈ e.map Prod.fst, m k = none := by
  constructor
  · intro h k hk
    rw [← congrFun h k]
    exact herase k hk
  · intro h
    funext k
    by_cases hk : k ∈ e.map Prod.fst
    · rw [herase k hk, h k hk]
    · rw [applyBatch_of_notMem _ hk, applyBatch_of_notMem _ fun hb => hk (hsub k hb)]

theorem applyBatch_none (m : K → Option V) {e : List (K × Option V)}
    (he : ∀ x ∈ e, x.2 = none) {k : K} (hk : k ∈ e.map Prod.fst) : applyBatch m e k = none := by
  obtain ⟨⟨k, o⟩, hx, rfl⟩ := List.mem_map.mp hk
  obtain rfl : o = none := he _ hx
  exact applyBatch_of_unique m hx fun o' ho' => he _ ho'

theorem applyBatch_eq_self_iff {b : List (K × Option V)} (m : K → Option V)
    (hnd : (b.map Prod.fst).Nodup) : applyBatch m b = m ↔ ∀ e ∈ b, m e.1 = e.2 := by
  constructor
  · intro h e he
    rw [← congrFun h e.1]
    exact applyBatch_of_unique m he fun o' ho' =>
      congrArg Prod.snd (List.inj_on_of_nodup_map hnd ho' he rfl)
  · clear hnd
    induction b with
    | nil => exact fun _ => rfl
    | cons e b ih =>
      intro h
      show applyBatch (Function.update m e.1 e.2) b = m
      rw [← h e (by simp), Function.update_eq_self]
      exact ih fun x hx => h x (by simp [hx])

end Batch

/-- The entries collected for the three indexes while a block is processed. -/
structure IndexBatch where
  addressIndex : List (CAddressIndexKey × ℤ)
  addressUnspentIndex : List (CAddressUnspentKey × CAddressUnspentValue)
  spentIndex : List (CSpentIndexKey × CSpentIndexValue)

def IndexBatch.empty : IndexBatch := ⟨[], [], []⟩

/-- `push_back` of further entries. -/
def IndexBatch.append (a b : IndexBatch) : IndexBatch :=
  ⟨a.addressIndex ++ b.addressIndex, a.addressUnspentIndex ++ b.addressUnspentIndex,
    a.spentIndex ++ b.spentIndex⟩

instance : Append IndexBatch := ⟨IndexBatch.append⟩

theorem IndexBatch.append_assoc (a b c : IndexBatch) : a ++ b ++ c = a ++ (b ++ c) := by
  show IndexBatch.append (IndexBatch.append a b) c = IndexBatch.append a (IndexBatch.append b c)
  simp [IndexBatch.append]

@[simp] theorem IndexBatch.empty_append (a : IndexBatch) : IndexBatch.empty ++ a = a := by
  show IndexBatch.append IndexBatch.empty a = a
  simp [IndexBatch.append, IndexBatch.empty]

@[simp] theorem IndexBatch.append_empty (a : IndexBatch) : a ++ IndexBatch.empty = a := by
  show IndexBatch.append a IndexBatch.empty = a
  simp [IndexBatch.append, IndexBatch.empty]

/-- The entries of the elements of a list, each with its index. -/
def IndexBatch.collect {α : Type} (f : ℕ → α → IndexBatch) : ℕ → List α → IndexBatch
  | _, [] => .empty
  | k, x :: xs => f k x ++ collect f (k + 1) xs

/-- The same, from the last element to the first. -/
def IndexBatch.collectRev {α : Type} (f : ℕ → α → IndexBatch) : ℕ → List α → IndexBatch
  | _, [] => .empty
  | k, x :: xs => collectRev f (k + 1) xs ++ f k x

/-- What a batch holds for one index, as far as appending is concerned. -/
structure IndexBatch.Part {β : Type} (part : IndexBatch → List β) : Prop where
  empty : part .empty = []
  append : ∀ a b, part (a ++ b) = part a ++ part b

theorem IndexBatch.mem_collect {α β : Type} {part : IndexBatch → List β}
    (hp : IndexBatch.Part part) (f : ℕ → α → IndexBatch) {e : β} :
    ∀ {xs : List α} {k : ℕ}, e ∈ part (collect f k xs) ↔
      ∃ n x, xs[n]? = some x ∧ e ∈ part (f (k + n) x) := by
  intro xs
  induction xs with
  | nil => intro k; simp [collect, hp.empty]
  | cons x xs ih =>
    intro k
    rw [collect, hp.append, List.mem_append, ih]
    constructor
    · rintro (h | ⟨n, y, hy, h⟩)
      · exact ⟨0, x, rfl, h⟩
      · exact ⟨n + 1, y, hy, by rwa [show k + (n + 1) = k + 1 + n by omega]⟩
    · rintro ⟨n, y, hy, h⟩
      cases n with
      | zero =>
        obtain rfl := Option.some.inj hy
        exact .inl h
      | succ n => exact .inr ⟨n, y, hy, by rwa [show k + 1 + n = k + (n + 1) by omega]⟩

theorem IndexBatch.mem_collectRev {α β : Type} {part : IndexBatch → List β}
    (hp : IndexBatch.Part part) (f : ℕ → α → IndexBatch) {e : β} :
    ∀ {xs : List α} {k : ℕ}, e ∈ part (collectRev f k xs) ↔ e ∈ part (collect f k xs) := by
  intro xs
  induction xs with
  | nil => exact fun {k} => Iff.rfl
  | cons x xs ih =>
    intro k
    rw [collect, collectRev, hp.append, hp.append, List.mem_append, List.mem_append, ih, or_comm]

theorem IndexBatch.collect_eq_flatMap {α β : Type} {part : IndexBatch → List β}
    (hp : IndexBatch.Part part) {f : ℕ → α → IndexBatch} {g : α → List β}
    (h : ∀ k x, part (f k x) = g x) :
    ∀ (xs : List α) (k : ℕ), part (collect f k xs) = xs.flatMap g := by
  intro xs
  induction xs with
  | nil => exact fun k => hp.empty
  | cons x xs ih =>
    intro k
    rw [collect, hp.append, h, ih, List.flatMap_cons]

/-- A value to be written, or nothing for a null value. -/
def CAddressUnspentValue.entry (v : CAddressUnspentValue) : Option CAddressUnspentValue :=
  if v.isNull then none else some v

def CSpentIndexValue.entry (v : CSpentIndexValue) : Option CSpentIndexValue :=
  if v.isNull then none else some v

namespace CBlockTreeDB

variable (db : CBlockTreeDB)

def writeAddressIndex (vect : List (CAddressIndexKey × ℤ)) : CBlockTreeDB :=
  { db with addressIndex := applyBatch db.addressIndex (vect.map fun e => (e.1, some e.2)) }

def eraseAddressIndex (vect : List (CAddressIndexKey × ℤ)) : CBlockTreeDB :=
  { db with addressIndex := applyBatch db.addressIndex (vect.map fun e => (e.1, none)) }

def updateAddressUnspentIndex (vect : List (CAddressUnspentKey × CAddressUnspentValue)) :
    CBlockTreeDB :=
  { db with
    addressUnspentIndex :=
      applyBatch db.addressUnspentIndex (vect.map fun e => (e.1, e.2.entry)) }

def updateSpentIndex (vect : List (CSpentIndexKey × CSpentIndexValue)) : CBlockTreeDB :=
  { db with spentIndex := applyBatch db.spentIndex (vect.map fun e => (e.1, e.2.entry)) }

end CBlockTreeDB

end Stonecoin
