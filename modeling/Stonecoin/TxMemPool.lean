/-
The memory pool of `txmempool.h` and `txmempool.cpp`: its entries with the count, size and fees
of what depends on them, the links between them, `addUnchecked` and the walk of
`CalculateMemPoolAncestors`.

A `txiter` is the hash of the entry that it points to.  `none` is a failed assertion, or an
iterator that points nowhere.  Sizes are sums of the sizes of transactions in memory, so they
do not reach 2^64.
-/
import Stonecoin.Transaction
import Stonecoin.OrderedMaps
import Stonecoin.Loops
import Stonecoin.Worklists
import Mathlib.Data.Finset.Sort
import Mathlib.Algebra.BigOperators.Group.Finset.Basic

namespace Stonecoin

/-! ### Entries -/

structure CTxMemPoolEntry where
  tx : CTransaction
  nFee : ℤ
  nTxSize : ℕ
  feeDelta : ℤ
  nCountWithDescendants : ℤ
  nSizeWithDescendants : ℤ
  nModFeesWithDescendants : ℤ
deriving DecidableEq

namespace CTxMemPoolEntry

/-- The constructor. -/
def of (tx : CTransaction) (nFee : ℤ) : CTxMemPoolEntry where
  tx := tx
  nFee := nFee
  nTxSize := tx.getSerializeSize
  feeDelta := 0
  nCountWithDescendants := 1
  nSizeWithDescendants := tx.getSerializeSize
  nModFeesWithDescendants := nFee

@[simp] theorem of_tx (tx : CTransaction) (nFee : ℤ) : (of tx nFee).tx = tx := rfl

@[simp] theorem of_nTxSize (tx : CTransaction) (nFee : ℤ) :
    (of tx nFee).nTxSize = tx.getSerializeSize := rfl

variable (e : CTxMemPoolEntry)

def getModifiedFee : ℤ := e.nFee + e.feeDelta

def isDirty : Bool := e.nCountWithDescendants = 0

def updateFeeDelta (newFeeDelta : ℤ) : CTxMemPoolEntry :=
  { e with
    nModFeesWithDescendants := e.nModFeesWithDescendants + (newFeeDelta - e.feeDelta)
    feeDelta := newFeeDelta }

/-- What `UpdateState` makes of an entry that is not dirty. -/
def withDescendant (modifySize modifyFee modifyCount : ℤ) : CTxMemPoolEntry :=
  { e with
    nSizeWithDescendants := e.nSizeWithDescendants + modifySize
    nModFeesWithDescendants := e.nModFeesWithDescendants + modifyFee
    nCountWithDescendants := e.nCountWithDescendants + modifyCount }

def updateState (modifySize modifyFee modifyCount : ℤ) : Option CTxMemPoolEntry :=
  if e.isDirty then some e
  else
    let e := e.withDescendant modifySize modifyFee modifyCount
    if 0 < e.nSizeWithDescendants ∧ 0 < e.nCountWithDescendants then some e else none

theorem updateState_add {e : CTxMemPoolEntry} {size : ℕ} (fee : ℤ)
    (hcount : 0 < e.nCountWithDescendants) (hsize : 0 < e.nSizeWithDescendants) :
    e.updateState size fee 1 = some (e.withDescendant size fee 1) := by
  have hdirty : e.isDirty = false := by simp [isDirty, hcount.ne']
  have hpos : 0 < (e.withDescendant size fee 1).nSizeWithDescendants ∧
      0 < (e.withDescendant size fee 1).nCountWithDescendants := by
    simp only [withDescendant]
    omega
  rw [updateState, hdirty, if_neg (by simp)]
  exact if_pos hpos

theorem updateState_tx {e e' : CTxMemPoolEntry} {size fee count : ℤ}
    (h : e.updateState size fee count = some e') : e'.tx = e.tx := by
  simp only [updateState] at h
  split_ifs at h
  · rw [← Option.some.inj h]
  · rw [← Option.some.inj h]
    rfl

end CTxMemPoolEntry

/-! ### Sets of entries and links -/

/-- The order in which the entries of a set are visited.  `CompareIteratorByHash` gives one. -/
structure EntryOrder where
  visit : Finset UInt256 → List UInt256
  nodup : ∀ s, (visit s).Nodup
  mem_visit : ∀ s h, h ∈ visit s ↔ h ∈ s

namespace EntryOrder

attribute [simp] mem_visit

def byNumber : EntryOrder :=
  have : IsTrans UInt256 fun a b => a.toNat ≤ b.toNat := ⟨fun _ _ _ => Nat.le_trans⟩
  have : Std.Antisymm fun a b : UInt256 => a.toNat ≤ b.toNat :=
    ⟨fun _ _ h h' => BitVec.eq_of_toNat_eq (Nat.le_antisymm h h')⟩
  have : Std.Total fun a b : UInt256 => a.toNat ≤ b.toNat := ⟨fun _ _ => Nat.le_total _ _⟩
  { visit := fun s => s.sort fun a b => a.toNat ≤ b.toNat
    nodup := fun s => s.sort_nodup _
    mem_visit := fun _ _ => Finset.mem_sort _ }

variable (order : EntryOrder)

def first (s : Finset UInt256) : Option UInt256 := (order.visit s).head?

variable {order}

theorem eq_empty_of_first {s : Finset UInt256} (h : order.first s = none) : s = ∅ := by
  have hnil : order.visit s = [] := List.head?_eq_none_iff.mp h
  ext x
  rw [← order.mem_visit s x, hnil]
  simp

theorem mem_of_first {s : Finset UInt256} {a : UInt256} (h : order.first s = some a) : a ∈ s :=
  (order.mem_visit s a).mp (List.mem_of_mem_head? h)

end EntryOrder

structure TxLinks where
  parents : Finset UInt256
  children : Finset UInt256

abbrev TxLinksMap : Type := AList fun _ : UInt256 => TxLinks

namespace TxLinksMap

variable (mapLinks : TxLinksMap)

def links (entry : UInt256) : TxLinks := (mapLinks.lookup entry).getD ⟨∅, ∅⟩

def updateChild (entry child : UInt256) (add : Bool) : TxLinksMap :=
  let links := mapLinks.links entry
  mapLinks.insert entry { links with
    children := if add then insert child links.children else links.children.erase child }

def updateParent (entry parent : UInt256) (add : Bool) : TxLinksMap :=
  let links := mapLinks.links entry
  mapLinks.insert entry { links with
    parents := if add then insert parent links.parents else links.parents.erase parent }

theorem lookup_foldl_updateChild {ks : List UInt256} (hnodup : ks.Nodup) (child k : UInt256) :
    (ks.foldl (fun m k => m.updateChild k child true) mapLinks).lookup k =
      if k ∈ ks then
        some ⟨(mapLinks.links k).parents, insert child (mapLinks.links k).children⟩
      else mapLinks.lookup k :=
  OrderedMaps.lookup_foldl_insert
    (fun _ o => TxLinks.mk (o.getD ⟨∅, ∅⟩).parents (insert child (o.getD ⟨∅, ∅⟩).children))
    hnodup mapLinks k

end TxLinksMap

/-! ### The pool -/

structure CInPoint where
  ptx : CTransaction
  n : ℕ
deriving DecidableEq

structure CTxMemPool where
  mapTx : AList fun _ : UInt256 => CTxMemPoolEntry
  mapLinks : TxLinksMap
  mapNextTx : AList fun _ : COutPoint => CInPoint
  mapDeltas : AList fun _ : UInt256 => ℤ
  nTransactionsUpdated : ℕ
  totalTxSize : ℕ

/-- The four limits of `CalculateMemPoolAncestors`. -/
structure PackageLimits where
  limitAncestorCount : ℕ
  limitAncestorSize : ℕ
  limitDescendantCount : ℕ
  limitDescendantSize : ℕ

/-- What `CalculateMemPoolAncestors` leaves: the set it has filled, and the text of `errString`
when it returns false. -/
structure AncestorResult where
  setAncestors : Finset UInt256
  errString : Option String
deriving DecidableEq

/-- The variables of its loop. -/
structure AncestorWalk where
  setAncestors : Finset UInt256
  parentHashes : Finset UInt256
  totalSizeWithAncestors : ℕ

/-- `_clear`. -/
def CTxMemPool.empty : CTxMemPool := ⟨∅, ∅, ∅, ∅, 0, 0⟩

namespace CTxMemPool

variable (order : EntryOrder) (pool : CTxMemPool)

def getMemPoolParents (entry : UInt256) : Option (Finset UInt256) :=
  (pool.mapLinks.lookup entry).map TxLinks.parents

/-! ### CalculateMemPoolAncestors -/

def searchParents (limitAncestorCount : ℕ) :
    List CTxIn → Finset UInt256 → Except String (Finset UInt256)
  | [], parentHashes => .ok parentHashes
  | i :: vin, parentHashes =>
    if i.prevout.hash ∈ pool.mapTx then
      let parentHashes := insert i.prevout.hash parentHashes
      if limitAncestorCount < parentHashes.card + 1 then
        .error ("too many unconfirmed parents [limit: " ++ toString limitAncestorCount ++ "]")
      else searchParents limitAncestorCount vin parentHashes
    else searchParents limitAncestorCount vin parentHashes

def stageParents (limitAncestorCount : ℕ) (setAncestors : Finset UInt256) :
    List UInt256 → Finset UInt256 → Except String (Finset UInt256)
  | [], parentHashes => .ok parentHashes
  | phash :: phashes, parentHashes =>
    let parentHashes :=
      if phash ∈ setAncestors then parentHashes else insert phash parentHashes
    if limitAncestorCount < parentHashes.card + setAncestors.card + 1 then
      .error ("too many unconfirmed ancestors [limit: " ++ toString limitAncestorCount ++ "]")
    else stageParents limitAncestorCount setAncestors phashes parentHashes

/-- The tests of an ancestor that has been taken from the stage. -/
def ancestorError (l : PackageLimits) (nTxSize : ℕ) (stageit : UInt256) (e : CTxMemPoolEntry)
    (totalSizeWithAncestors : ℕ) : Option String :=
  if l.limitDescendantSize < e.nSizeWithDescendants + nTxSize then
    some ("exceeds descendant size limit for tx " ++ stageit.toHex ++ " [limit: " ++
      toString l.limitDescendantSize ++ "]")
  else if l.limitDescendantCount < e.nCountWithDescendants + 1 then
    some ("too many descendants for tx " ++ stageit.toHex ++ " [limit: " ++
      toString l.limitDescendantCount ++ "]")
  else if l.limitAncestorSize < totalSizeWithAncestors then
    some ("exceeds ancestor size limit [limit: " ++ toString l.limitAncestorSize ++ "]")
  else none

def ancestorPass (l : PackageLimits) (nTxSize : ℕ) (w : AncestorWalk) :
    AncestorWalk ⊕ Option AncestorResult :=
  match order.first w.parentHashes with
  | none => .inr (some ⟨w.setAncestors, none⟩)
  | some stageit =>
    match pool.mapTx.lookup stageit, pool.getMemPoolParents stageit with
    | some e, some setMemPoolParents =>
      let setAncestors := insert stageit w.setAncestors
      let parentHashes := w.parentHashes.erase stageit
      let totalSizeWithAncestors := w.totalSizeWithAncestors + e.nTxSize
      match ancestorError l nTxSize stageit e totalSizeWithAncestors with
      | some errString => .inr (some ⟨setAncestors, some errString⟩)
      | none =>
        match stageParents l.limitAncestorCount setAncestors (order.visit setMemPoolParents)
          parentHashes with
        | .error errString => .inr (some ⟨setAncestors, some errString⟩)
        | .ok parentHashes => .inl ⟨setAncestors, parentHashes, totalSizeWithAncestors⟩
    | _, _ => .inr none

def startParents (l : PackageLimits) (entry : CTxMemPoolEntry) (fSearchForParents : Bool) :
    Option (Except String (Finset UInt256)) :=
  if fSearchForParents then some (pool.searchParents l.limitAncestorCount entry.tx.vin ∅)
  else (pool.getMemPoolParents entry.tx.hash).map .ok

/-- `CalculateMemPoolAncestors` returns with a result.  Every caller passes an empty set. -/
def CalculateMemPoolAncestors (entry : CTxMemPoolEntry) (l : PackageLimits)
    (fSearchForParents : Bool) (result : Option AncestorResult) : Prop :=
  match pool.startParents l entry fSearchForParents with
  | none => result = none
  | some (.error errString) => result = some ⟨∅, some errString⟩
  | some (.ok parentHashes) =>
    Loops.Ends (pool.ancestorPass order l entry.nTxSize) ⟨∅, parentHashes, entry.nTxSize⟩ result

/-! ### addUnchecked -/

def updateAncestorsOf (add : Bool) (it : UInt256) (setAncestors : Finset UInt256) :
    Option CTxMemPool := do
  let parentIters ← pool.getMemPoolParents it
  let mapLinks := (order.visit parentIters).foldl (fun m piter => m.updateChild piter it add)
    pool.mapLinks
  let e ← pool.mapTx.lookup it
  let updateCount : ℤ := if add then 1 else -1
  let mapTx ← (order.visit setAncestors).foldlM
    (OrderedMaps.modify fun e' =>
      e'.updateState (updateCount * e.nTxSize) (updateCount * e.getModifiedFee) updateCount)
    pool.mapTx
  pure { pool with mapLinks := mapLinks, mapTx := mapTx }

def recordInputs (tx : CTransaction) (mapNextTx : AList fun _ : COutPoint => CInPoint) :
    AList fun _ : COutPoint => CInPoint :=
  tx.vin.zipIdx.foldl (fun m i => m.insert i.1.prevout ⟨tx, i.2⟩) mapNextTx

def linkParents (newit : UInt256) (setParentTransactions : Finset UInt256) : TxLinksMap :=
  ((order.visit setParentTransactions).filter (· ∈ pool.mapTx)).foldl
    (fun m pit => m.updateParent newit pit true) pool.mapLinks

/-- The fee that `PrioritiseTransaction` has left for a transaction. -/
def prioritised (hash newit : UInt256) : Option CTxMemPool :=
  match pool.mapDeltas.lookup hash with
  | none => some pool
  | some delta =>
    if delta = 0 then some pool
    else (OrderedMaps.modify (fun e => some (e.updateFeeDelta delta)) pool.mapTx newit).map
      fun mapTx => { pool with mapTx := mapTx }

def addUnchecked (hash : UInt256) (entry : CTxMemPoolEntry) (setAncestors : Finset UInt256) :
    Option CTxMemPool := do
  let newit := entry.tx.hash
  let pool := { pool with
    mapTx := OrderedMaps.insertAbsent pool.mapTx ⟨newit, entry⟩
    mapLinks := OrderedMaps.insertAbsent pool.mapLinks ⟨newit, ⟨∅, ∅⟩⟩ }
  let pool ← pool.prioritised hash newit
  let newEntry ← pool.mapTx.lookup newit
  let tx := newEntry.tx
  let pool := { pool with mapNextTx := recordInputs tx pool.mapNextTx }
  let setParentTransactions := (tx.vin.map fun i => i.prevout.hash).toFinset
  let pool := { pool with mapLinks := pool.linkParents order newit setParentTransactions }
  let pool ← pool.updateAncestorsOf order true newit setAncestors
  pure { pool with
    nTransactionsUpdated := (pool.nTransactionsUpdated + 1) % 2 ^ 32
    totalTxSize := pool.totalTxSize + entry.nTxSize }

end CTxMemPool
end Stonecoin
