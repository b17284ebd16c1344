/-
The address and spent indexes of the memory pool (`txmempool.cpp`, `addressindex.h`,
`spentindex.h`): what a transaction brings to them, how it is taken out, and the lookup of
addresses.

A map and the lists of its keys that are stored beside it are a `ListedIndex`: `mapAddress` with
`mapAddressInserted`, `mapSpent` with `mapSpentInserted`.
-/
import Stonecoin.ConnectBlock
import Stonecoin.KeyScans
import Stonecoin.ListedIndexes
import Stonecoin.LockCandidates
import Stonecoin.MasternodeRanks
import Stonecoin.TxMemPool

namespace Stonecoin

open Ranking

/-! ### Keys -/

structure CMempoolAddressDelta where
  time : ℤ
  amount : ℤ
  prevhash : UInt256
  prevout : ℕ
deriving DecidableEq

structure CMempoolAddressDeltaKey where
  type : ℤ
  addressBytes : UInt160
  txhash : UInt256
  index : ℕ
  spending : ℤ
deriving DecidableEq

namespace CMempoolAddressDeltaKey

def first (addressType : ℤ) (addressHash : UInt160) : CMempoolAddressDeltaKey :=
  ⟨addressType, addressHash, 0, 0, 0⟩

def lt (a b : CMempoolAddressDeltaKey) : Bool :=
  if a.type = b.type then
    if a.addressBytes = b.addressBytes then
      if a.txhash = b.txhash then
        if a.index = b.index then a.spending < b.spending
        else a.index < b.index
      else uint256Lt a.txhash b.txhash
    else a.addressBytes.bytes < b.addressBytes.bytes
  else a.type < b.type

end CMempoolAddressDeltaKey

/-! ### The indexes -/

/-- The entry of an input in `addAddressIndex`, when the output that it spends has an address. -/
def inputDelta (txhash : UInt256) (time : ℤ) (input : CTxIn) (prevout : CTxOut) (j : ℕ) :
    Option (Σ _ : CMempoolAddressDeltaKey, CMempoolAddressDelta) :=
  (scriptAddress prevout.scriptPubKey).map fun a =>
    ⟨⟨a.1, a.2, txhash, j, 1⟩, ⟨time, prevout.nValue * -1, input.prevout.hash, input.prevout.n⟩⟩

/-- The entry of an output, when it has an address. -/
def outputDelta (txhash : UInt256) (time : ℤ) (out : CTxOut) (k : ℕ) :
    Option (Σ _ : CMempoolAddressDeltaKey, CMempoolAddressDelta) :=
  (scriptAddress out.scriptPubKey).map fun a =>
    ⟨⟨a.1, a.2, txhash, k, 0⟩, ⟨time, out.nValue, 0, 0⟩⟩

/-- What `addAddressIndex` inserts for a transaction whose inputs spend `prevouts`. -/
def addressEntries (tx : CTransaction) (time : ℤ) (prevouts : List CTxOut) :
    List (Σ _ : CMempoolAddressDeltaKey, CMempoolAddressDelta) :=
  ((tx.vin.zip prevouts).zipIdx.filterMap fun i => inputDelta tx.hash time i.1.1 i.1.2 i.2) ++
    tx.vout.zipIdx.filterMap fun o => outputDelta tx.hash time o.1 o.2

def spentEntry (txhash : UInt256) (input : CTxIn) (prevout : CTxOut) (j : ℕ) :
    Σ _ : CSpentIndexKey, CSpentIndexValue :=
  let a := (scriptAddress prevout.scriptPubKey).getD (0, .null)
  ⟨⟨input.prevout.hash, input.prevout.n⟩, ⟨txhash, j, -1, prevout.nValue, a.1, a.2⟩⟩

def spentEntries (tx : CTransaction) (prevouts : List CTxOut) :
    List (Σ _ : CSpentIndexKey, CSpentIndexValue) :=
  (tx.vin.zip prevouts).zipIdx.map fun i => spentEntry tx.hash i.1.1 i.1.2 i.2

structure IndexedPool extends CTxMemPool where
  times : AList fun _ : UInt256 => ℤ
  address : ListedIndex UInt256 CMempoolAddressDeltaKey CMempoolAddressDelta
  spent : ListedIndex UInt256 CSpentIndexKey CSpentIndexValue

namespace IndexedPool

variable (pool : IndexedPool)

/-- `addAddressIndex`; `none` is a failed assertion of `GetOutputFor`. -/
def addAddressIndex (tx : CTransaction) (time : ℤ) (view : CCoinsViewCache) : Option IndexedPool :=
  (getOutputsFor view tx.vin).map fun prevouts =>
    { pool with address := pool.address.add tx.hash (addressEntries tx time prevouts) }

def addSpentIndex (tx : CTransaction) (view : CCoinsViewCache) : Option IndexedPool :=
  (getOutputsFor view tx.vin).map fun prevouts =>
    { pool with spent := pool.spent.add tx.hash (spentEntries tx prevouts) }

def removeAddressIndex (txhash : UInt256) : IndexedPool :=
  { pool with address := pool.address.remove txhash }

def removeSpentIndex (txhash : UInt256) : IndexedPool :=
  { pool with spent := pool.spent.remove txhash }

def getSpentIndex (key : CSpentIndexKey) : Option CSpentIndexValue := pool.spent.entries.lookup key

def ofAddress (it : UInt160 × ℤ) (key : CMempoolAddressDeltaKey) : Bool :=
  key.addressBytes = it.1 ∧ key.type = it.2

/-- What `getAddressIndex` appends to the results: from `lower_bound` on, the entries of each
address. -/
def getAddressIndex (addresses : List (UInt160 × ℤ)) :
    List (Σ _ : CMempoolAddressDeltaKey, CMempoolAddressDelta) :=
  addresses.flatMap fun it =>
    ((iterate CMempoolAddressDeltaKey.lt pool.address.entries).dropWhile fun ait =>
      ait.1.lt (.first it.2 it.1)).takeWhile fun ait => ofAddress it ait.1

end IndexedPool

/-! ### The order of the keys -/

theorem UInt160.lt_compares :
    Compares fun a b : UInt160 => decide (a.bytes < b.bytes) := by
  constructor
  · intro a b hab
    rw [decide_eq_true_eq] at hab
    exact decide_eq_false (List.lt_asymm hab)
  · intro a b c hba hcb
    rw [decide_eq_false_iff_not, List.not_lt] at hba hcb ⊢
    exact List.le_trans hba hcb

theorem UInt160.lt_apart (a b : UInt160) (hab : decide (a.bytes < b.bytes) = false)
    (hba : decide (b.bytes < a.bytes) = false) : a = b := by
  rw [decide_eq_false_iff_not, List.not_lt] at hab hba
  obtain ⟨bytes, _⟩ := a
  obtain ⟨bytes', _⟩ := b
  obtain rfl : bytes = bytes' := List.le_antisymm hba hab
  rfl

theorem not_uint256Lt_zero (a : UInt256) : uint256Lt a 0 = false := by
  have hzero : (0 : UInt256).memory = List.replicate a.memory.length 0 := by
    have hlength : a.memory.length = 32 := by simp [UInt256.memory]
    rw [hlength]
    decide
  have hle : ∀ l : List (BitVec 8), ¬ l < List.replicate l.length 0 := by
    intro l
    induction l with
    | nil => exact List.not_lt_nil []
    | cons b l ih =>
      intro hlt
      rw [List.length_cons, List.replicate_succ, List.cons_lt_cons_iff] at hlt
      rcases hlt with hlt | ⟨-, hlt⟩
      · exact absurd hlt (by simp)
      · exact ih hlt
  rw [uint256Lt_eq, hzero]
  exact decide_eq_false (hle a.memory)

namespace CMempoolAddressDeltaKey

theorem lt_compares : Compares lt := by
  have hnat : ∀ x y : ℕ, decide (x < y) = false → decide (y < x) = false → x = y := by
    intro x y hxy hyx
    simp only [decide_eq_false_iff_not] at hxy hyx
    omega
  have hint : ∀ x y : ℤ, decide (x < y) = false → decide (y < x) = false → x = y := by
    intro x y hxy hyx
    simp only [decide_eq_false_iff_not] at hxy hyx
    omega
  have hindex := (Compares.ofLT (id : ℕ → ℕ)).ite (f := index) hnat (.ofLT spending)
  have htxhash := uint256Lt_compares.ite (f := txhash) (fun _ _ => uint256Lt_apart) hindex
  have hbytes := UInt160.lt_compares.ite (f := addressBytes) UInt160.lt_apart htxhash
  exact (Compares.ofLT (id : ℤ → ℤ)).ite (f := type) hint hbytes

variable {a b : CMempoolAddressDeltaKey} {addressType : ℤ} {addressHash : UInt160}

theorem not_lt_first (htype : a.type = addressType) (hbytes : a.addressBytes = addressHash)
    (hspending : 0 ≤ a.spending) : a.lt (first addressType addressHash) = false := by
  unfold lt first
  rw [if_pos htype, if_pos hbytes]
  split_ifs
  · exact decide_eq_false (not_lt.mpr hspending)
  · exact decide_eq_false (Nat.not_lt_zero _)
  · exact not_uint256Lt_zero _

theorem between (hab : b.lt a = false) (ha : a.lt (first addressType addressHash) = false)
    (htype : b.type = addressType) (hbytes : b.addressBytes = addressHash) :
    a.type = addressType ∧ a.addressBytes = addressHash := by
  subst htype hbytes
  have ht : a.type = b.type := by
    by_contra hne
    rw [lt, if_neg (Ne.symm hne), decide_eq_false_iff_not] at hab
    rw [lt, first, if_neg hne, decide_eq_false_iff_not] at ha
    exact hne (Int.le_antisymm (not_lt.mp hab) (not_lt.mp ha))
  refine ⟨ht, ?_⟩
  by_contra hne
  rw [lt, if_pos ht.symm, if_neg (Ne.symm hne)] at hab
  rw [lt, first, if_pos ht, if_neg hne] at ha
  exact hne (UInt160.lt_apart _ _ ha hab)

end CMempoolAddressDeltaKey

/-! ### The lookup -/

theorem IndexedPool.getAddressIndex_eq {pool : IndexedPool}
    (hspending : ∀ e ∈ pool.address.entries.entries, 0 ≤ e.1.spending)
    (addresses : List (UInt160 × ℤ)) :
    pool.getAddressIndex addresses = addresses.flatMap fun it =>
      (iterate CMempoolAddressDeltaKey.lt pool.address.entries).filter fun e =>
        ofAddress it e.1 := by
  have hcompares := CMempoolAddressDeltaKey.lt_compares
  unfold getAddressIndex
  congr 1
  funext it
  apply KeyScans.range_eq_filter (sortUp_pairwise (hcompares.comap Sigma.fst) _)
  · intro a b hab hb
    cases ha : a.1.lt (.first it.2 it.1) with
    | true => rfl
    | false => exact absurd (hb.symm.trans (hcompares.trans _ _ _ ha hab)) (by simp)
  · intro a b hab ha hb
    simp only [ofAddress, decide_eq_true_eq] at hb ⊢
    exact (CMempoolAddressDeltaKey.between hab ha hb.2 hb.1).symm
  · intro e he hm
    simp only [ofAddress, decide_eq_true_eq] at hm
    exact CMempoolAddressDeltaKey.not_lt_first hm.2 hm.1
      (hspending e ((mem_iterate _ _ e).mp he))

end Stonecoin
