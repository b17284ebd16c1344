/-
How transactions leave the memory pool (`txmempool.cpp`): `CalculateDescendants`,
`UpdateForRemoveFromMempool`, `removeUnchecked`, and what calls them.

The functions that contain loops over the links are relations between the pool before and the
pool after; where an assertion fails, or an iterator points nowhere, there is no pool after.

`TrimToSize` takes as parameters `DynamicMemoryUsage`, which depends on the memory layout, and the
first entry in the order of the descendant scores, which are floating point numbers.
-/
import Stonecoin.MemPoolIndexes
import Stonecoin.MemPoolInvariant

namespace Stonecoin

/-- The variables of the loop of `CalculateDescendants`. -/
structure DescendantWalk where
  setDescendants : Finset UInt256
  stage : Finset UInt256

namespace CTxMemPool

variable (order : EntryOrder) (pool : CTxMemPool)

def getMemPoolChildren (entry : UInt256) : Option (Finset UInt256) :=
  (pool.mapLinks.lookup entry).map TxLinks.children

/-! ### CalculateDescendants -/

def descendantPass (w : DescendantWalk) : DescendantWalk ⊕ Option (Finset UInt256) :=
  match order.first w.stage with
  | none => .inr (some w.setDescendants)
  | some it =>
    let setDescendants := insert it w.setDescendants
    let stage := w.stage.erase it
    match pool.getMemPoolChildren it with
    | none => .inr none
    | some setChildren =>
      .inl ⟨setDescendants, stage ∪ setChildren.filter (· ∉ setDescendants)⟩

def CalculateDescendants (entryit : UInt256) (setDescendants : Finset UInt256)
    (result : Option (Finset UInt256)) : Prop :=
  Loops.Ends (pool.descendantPass order)
    ⟨setDescendants, if entryit ∈ setDescendants then ∅ else {entryit}⟩ result

def CalculateAllDescendants (entries setDescendants : Finset UInt256) : Prop :=
  Loops.Each (fun it s s' => pool.CalculateDescendants order it s (some s')) (order.visit entries)
    ∅ setDescendants

/-! ### UpdateForRemoveFromMempool -/

def updateChildrenForRemoval (it : UInt256) : Option CTxMemPool :=
  (pool.getMemPoolChildren it).map fun setMemPoolChildren =>
    { pool with
      mapLinks := (order.visit setMemPoolChildren).foldl
        (fun m updateIt => m.updateParent updateIt it false) pool.mapLinks }

def noLimits : PackageLimits := ⟨2 ^ 64 - 1, 2 ^ 64 - 1, 2 ^ 64 - 1, 2 ^ 64 - 1⟩

def LeaveAncestors (removeIt : UInt256) (pool pool' : CTxMemPool) : Prop :=
  ∃ entry result, pool.mapTx.lookup removeIt = some entry ∧
    pool.CalculateMemPoolAncestors order entry noLimits false (some result) ∧
    pool.updateAncestorsOf order false removeIt result.setAncestors = some pool'

def UpdateForRemoveFromMempool (entriesToRemove : Finset UInt256) (pool pool' : CTxMemPool) :
    Prop :=
  ∃ pool₁, Loops.Each (LeaveAncestors order) (order.visit entriesToRemove) pool pool₁ ∧
    Loops.Each (fun removeIt p p' => p.updateChildrenForRemoval order removeIt = some p')
      (order.visit entriesToRemove) pool₁ pool'

def txsOf (entries : Finset UInt256) : Option (List CTransaction) :=
  (order.visit entries).mapM pool.txOf

/-- The entries that spend an output of a transaction. -/
def spendersOf (origTx : CTransaction) : Option (Finset UInt256) :=
  (List.range origTx.vout.length).foldlM
    (fun txToRemove i =>
      match pool.mapNextTx.lookup ⟨origTx.hash, i⟩ with
      | none => some txToRemove
      | some it =>
        -- the assertion
        if it.ptx.hash ∈ pool.mapTx then some (insert it.ptx.hash txToRemove) else none)
    ∅

def txToRemove (origTx : CTransaction) (fRecursive : Bool) : Option (Finset UInt256) :=
  if origTx.hash ∈ pool.mapTx then some {origTx.hash}
  else if fRecursive then pool.spendersOf origTx
  else some ∅

def SetAllRemoves (origTx : CTransaction) (fRecursive : Bool) (setAllRemoves : Finset UInt256) :
    Prop :=
  ∃ txToRemove, pool.txToRemove origTx fRecursive = some txToRemove ∧
    if fRecursive then pool.CalculateAllDescendants order txToRemove setAllRemoves
    else setAllRemoves = txToRemove

/-- What `TrimToSize` reports for the transactions that it has removed: the transactions that are
not in the pool, and whose outputs nothing in the pool spends. -/
def noSpendsRemaining (txn : List CTransaction) : List UInt256 :=
  txn.flatMap fun tx => tx.vin.filterMap fun txin =>
    if txin.prevout.hash ∈ pool.mapTx then none
    -- the first outpoint from `(hash, 0)` on has another hash
    else if pool.mapNextTx.keys.any fun o => o.hash = txin.prevout.hash then none
    else some txin.prevout.hash

end CTxMemPool

/-! ### The pool with its indexes -/

/-- A pool, and the transactions that a removal has reported so far. -/
structure Removal where
  pool : IndexedPool
  removed : List CTransaction

namespace IndexedPool

variable (order : EntryOrder) (pool : IndexedPool)

/-- The constructor. -/
def empty : IndexedPool := ⟨.empty, ∅, ⟨∅, ∅⟩, ⟨∅, ∅⟩⟩

def removeUnchecked (it : UInt256) : Option IndexedPool :=
  (pool.mapTx.lookup it).map fun entry =>
    let hash := entry.tx.hash
    let pool := { pool with
      mapNextTx := (entry.tx.vin.map CTxIn.prevout).foldl (fun m o => m.erase o) pool.mapNextTx
      totalTxSize := (pool.totalTxSize + 2 ^ 64 - entry.nTxSize) % 2 ^ 64
      mapLinks := pool.mapLinks.erase it
      mapTx := pool.mapTx.erase it
      times := pool.times.erase it
      nTransactionsUpdated := (pool.nTransactionsUpdated + 1) % 2 ^ 32 }
    (pool.removeAddressIndex hash).removeSpentIndex hash

def RemoveStaged (stage : Finset UInt256) (pool pool' : IndexedPool) : Prop :=
  ∃ core, CTxMemPool.UpdateForRemoveFromMempool order stage pool.toCTxMemPool core ∧
    Loops.Each (fun it p p' => p.removeUnchecked it = some p') (order.visit stage)
      { pool with toCTxMemPool := core } pool'

def clearPrioritisation (hash : UInt256) : IndexedPool :=
  { pool with mapDeltas := pool.mapDeltas.erase hash }

def Remove (origTx : CTransaction) (fRecursive : Bool) (s s' : Removal) : Prop :=
  ∃ setAllRemoves txs, s.pool.SetAllRemoves order origTx fRecursive setAllRemoves ∧
    s.pool.txsOf order setAllRemoves = some txs ∧ s'.removed = s.removed ++ txs ∧
    RemoveStaged order setAllRemoves s.pool s'.pool

/-- The input of a transaction in the loop of `removeConflicts`. -/
def ConflictPass (tx : CTransaction) (txin : CTxIn) (s s' : Removal) : Prop :=
  match s.pool.mapNextTx.lookup txin.prevout with
  | none => s' = s
  | some it =>
    let txConflict := it.ptx
    if txConflict.hash = tx.hash then s' = s
    else ∃ s₁, Remove order txConflict true s s₁ ∧
      s' = { s₁ with pool := s₁.pool.clearPrioritisation txConflict.hash }

def RemoveConflicts (tx : CTransaction) (s s' : Removal) : Prop :=
  Loops.Each (ConflictPass order tx) tx.vin s s'

def BlockPass (tx : CTransaction) (s s' : Removal) : Prop :=
  ∃ s₁ s₂, Remove order tx false ⟨s.pool, []⟩ s₁ ∧
    RemoveConflicts order tx ⟨s₁.pool, s.removed⟩ s₂ ∧
    s' = { s₂ with pool := s₂.pool.clearPrioritisation tx.hash }

def RemoveForBlock (vtx : List CTransaction) (s s' : Removal) : Prop :=
  Loops.Each (BlockPass order) vtx s s'

/-- The entries of `Expire` that are older than a time. -/
def toremove (time : ℤ) : Finset UInt256 :=
  (pool.mapTx.keys.filter fun h => (pool.times.lookup h).getD 0 < time).toFinset

/-- `Expire`, with the number that it returns. -/
def Expire (time : ℤ) (pool pool' : IndexedPool) (removed : ℕ) : Prop :=
  ∃ stage, pool.CalculateAllDescendants order (pool.toremove time) stage ∧
    RemoveStaged order stage pool pool' ∧ removed = stage.card

/-- `DynamicMemoryUsage` and `mapTx.get<1>().begin()`. -/
structure TrimEnv where
  usage : IndexedPool → ℕ
  begin : IndexedPool → Option UInt256

/-- A pass of `TrimToSize`, with what has been reported so far. -/
def TrimPass (env : TrimEnv) (s s' : IndexedPool × List UInt256) : Prop :=
  ∃ it stage txn, env.begin s.1 = some it ∧
    s.1.CalculateDescendants order it ∅ (some stage) ∧ s.1.txsOf order stage = some txn ∧
    RemoveStaged order stage s.1 s'.1 ∧ s'.2 = s.2 ++ s'.1.noSpendsRemaining txn

inductive TrimToSize (env : TrimEnv) (sizelimit : ℕ) :
    IndexedPool × List UInt256 → IndexedPool × List UInt256 → Prop
  | fits {s : IndexedPool × List UInt256} :
    env.usage s.1 ≤ sizelimit → TrimToSize env sizelimit s s
  | pass {s s₁ s' : IndexedPool × List UInt256} : sizelimit < env.usage s.1 →
    TrimPass order env s s₁ → TrimToSize env sizelimit s₁ s' → TrimToSize env sizelimit s s'

def clear : IndexedPool :=
  { pool with
    mapLinks := ∅
    mapTx := ∅
    mapNextTx := ∅
    totalTxSize := 0
    times := ∅
    nTransactionsUpdated := (pool.nTransactionsUpdated + 1) % 2 ^ 32 }

end IndexedPool

/-! ### What stays -/

namespace CTxMemPool

variable {order : EntryOrder} {pool pool' pool₁ : CTxMemPool}

/-- Two pools have the same transactions, with the same inputs recorded. -/
structure SameTxs (pool pool' : CTxMemPool) : Prop where
  txOf : ∀ h, pool'.txOf h = pool.txOf h
  nextTx : pool'.mapNextTx = pool.mapNextTx

namespace SameTxs

theorem refl (pool : CTxMemPool) : SameTxs pool pool := ⟨fun _ => rfl, rfl⟩

theorem trans (h : SameTxs pool pool₁) (h' : SameTxs pool₁ pool') : SameTxs pool pool' :=
  ⟨fun x => (h'.txOf x).trans (h.txOf x), h'.nextTx.trans h.nextTx⟩

end SameTxs

theorem updateAncestorsOf_sameTxs {add : Bool} {it : UInt256} {S : Finset UInt256}
    (h : pool.updateAncestorsOf order add it S = some pool') : SameTxs pool pool' := by
  simp only [updateAncestorsOf, Option.bind_eq_bind, Option.bind_eq_some_iff] at h
  obtain ⟨parentIters, -, e, -, mapTx, hfold, hpool⟩ := h
  obtain rfl := Option.some.inj hpool
  refine ⟨fun x => ?_, rfl⟩
  exact OrderedMaps.map_lookup_foldlM_modify CTxMemPoolEntry.tx
    (fun _ _ => CTxMemPoolEntry.updateState_tx) hfold x

theorem LeaveAncestors.sameTxs {removeIt : UInt256} (h : LeaveAncestors order removeIt pool pool') :
    SameTxs pool pool' := by
  obtain ⟨entry, result, -, -, hupdate⟩ := h
  exact updateAncestorsOf_sameTxs hupdate

theorem updateChildrenForRemoval_sameTxs {it : UInt256}
    (h : pool.updateChildrenForRemoval order it = some pool') : SameTxs pool pool' := by
  obtain ⟨children, -, rfl⟩ := Option.map_eq_some_iff.mp h
  exact ⟨fun _ => rfl, rfl⟩

theorem UpdateForRemoveFromMempool.sameTxs {entriesToRemove : Finset UInt256}
    (h : UpdateForRemoveFromMempool order entriesToRemove pool pool') : SameTxs pool pool' := by
  obtain ⟨pool₁, hleave, hchildren⟩ := h
  have hfirst : SameTxs pool pool₁ :=
    hleave.keep (I := SameTxs pool) (fun _ _ _ hstep hs => hs.trans hstep.sameTxs) (.refl pool)
  exact hchildren.keep (I := SameTxs pool)
    (fun _ _ _ hstep hs => hs.trans (updateChildrenForRemoval_sameTxs hstep)) hfirst

theorem prioritised_sameTxs {hash newit : UInt256} (h : pool.prioritised hash newit = some pool') :
    SameTxs pool pool' := by
  unfold prioritised at h
  split at h
  · rw [← Option.some.inj h]
    exact .refl pool
  · rename_i delta _
    split_ifs at h
    · rw [← Option.some.inj h]
      exact .refl pool
    · obtain ⟨mapTx, hmodify, rfl⟩ := Option.map_eq_some_iff.mp h
      have hfold : [newit].foldlM (OrderedMaps.modify fun e => some (e.updateFeeDelta delta))
          pool.mapTx = some mapTx := by
        rw [List.foldlM_cons, hmodify]
        rfl
      refine ⟨fun x => OrderedMaps.map_lookup_foldlM_modify CTxMemPoolEntry.tx ?_ hfold x, rfl⟩
      intro e e' he
      rw [← Option.some.inj he]
      rfl

theorem addUnchecked_txs {entry : CTxMemPoolEntry} {S : Finset UInt256}
    (habsent : entry.tx.hash ∉ pool.mapTx)
    (h : pool.addUnchecked order entry.tx.hash entry S = some pool') :
    (∀ x, pool'.txOf x = Function.update pool.txOf entry.tx.hash (some entry.tx) x) ∧
      pool'.mapNextTx = recordInputs entry.tx pool.mapNextTx := by
  simp only [addUnchecked, Option.bind_eq_bind, Option.bind_eq_some_iff] at h
  obtain ⟨pool₁, hprior, e, he, pool₂, hupdate, hpool⟩ := h
  obtain rfl := Option.some.inj hpool
  have h₁ := prioritised_sameTxs hprior
  have h₂ := updateAncestorsOf_sameTxs hupdate
  have hinserted : ∀ x, pool₁.txOf x = Function.update pool.txOf entry.tx.hash (some entry.tx) x := by
    intro x
    rw [h₁.txOf x]
    simp only [txOf, OrderedMaps.insertAbsent, if_neg habsent]
    by_cases hx : x = entry.tx.hash
    · subst hx
      rw [AList.lookup_insert, Function.update_self]
      rfl
    · rw [AList.lookup_insert_ne hx, Function.update_of_ne hx]
      rfl
  have htx : e.tx = entry.tx := by
    have hself := hinserted entry.tx.hash
    rw [Function.update_self, txOf, he] at hself
    exact Option.some.inj hself
  refine ⟨fun x => (h₂.txOf x).trans (hinserted x), ?_⟩
  rw [← htx]
  exact h₂.nextTx.trans (congrArg (recordInputs e.tx) h₁.nextTx)

theorem mem_recordInputs {tx : CTransaction} {m : AList fun _ : COutPoint => CInPoint}
    {o : COutPoint} : o ∈ recordInputs tx m ↔ o ∈ tx.vin.map CTxIn.prevout ∨ o ∈ m := by
  have hfold : ∀ (l : List (CTxIn × ℕ)) (m : AList fun _ : COutPoint => CInPoint),
      o ∈ l.foldl (fun m i => m.insert i.1.prevout ⟨tx, i.2⟩) m ↔
        o ∈ l.map (fun i => i.1.prevout) ∨ o ∈ m := by
    intro l
    induction l with
    | nil => simp
    | cons i l ih =>
      intro m
      rw [List.foldl_cons, ih, AList.mem_insert, List.map_cons, List.mem_cons]
      tauto
  rw [recordInputs, hfold]
  have hvin : tx.vin.zipIdx.map (fun i => i.1.prevout) = tx.vin.map CTxIn.prevout := by
    conv_rhs => rw [← List.zipIdx_map_fst 0 tx.vin, List.map_map]
    rfl
  rw [hvin]

end CTxMemPool

namespace IndexedPool

variable {pool pool' : IndexedPool} {it : UInt256}

theorem removeUnchecked_spec (h : pool.removeUnchecked it = some pool') :
    ∃ tx, pool.txOf it = some tx ∧ pool'.mapTx = pool.mapTx.erase it ∧
      pool'.mapNextTx = (tx.vin.map CTxIn.prevout).foldl (fun m o => m.erase o) pool.mapNextTx ∧
      pool'.address = pool.address.remove tx.hash ∧ pool'.spent = pool.spent.remove tx.hash := by
  obtain ⟨entry, hentry, rfl⟩ := Option.map_eq_some_iff.mp h
  refine ⟨entry.tx, ?_, rfl, rfl, rfl, rfl⟩
  rw [CTxMemPool.txOf, hentry]
  rfl

end IndexedPool
end Stonecoin
