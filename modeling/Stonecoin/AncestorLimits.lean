/-
The limits on chains of unconfirmed transactions.  `CalculateMemPoolAncestors` tests them while
it walks, against what it has seen and staged so far; here its verdict is compared with the
totals of the pool after `addUnchecked`.

  * `ancestorsLimited_iff`: the verdict is right when there is an ancestor; without one the
        size and the count of the transaction itself are not tested.
-/
import Stonecoin.MemPoolInvariant
import Mathlib.Algebra.BigOperators.Ring.Finset

namespace Stonecoin
namespace CTxMemPool

variable {order : EntryOrder} {pool pool' : CTxMemPool} {tx : CTransaction} {l : PackageLimits}
  {nFee : ℤ} {w : AncestorWalk} {S : Finset UInt256} {a : UInt256} {e : CTxMemPoolEntry}

/-! ### The limits -/

variable (pool) in
/-- The limits hold of a transaction of the pool and of its ancestors. -/
structure WithinLimits (hash : UInt256) (l : PackageLimits) : Prop where
  ancestorCount : (pool.ancestors hash).card + 1 ≤ l.limitAncestorCount
  ancestorSize : pool.txSize hash + ∑ a ∈ pool.ancestors hash, pool.txSize a ≤ l.limitAncestorSize
  descendantCount : ∀ a ∈ pool.ancestors hash,
    (pool.descendants a).card ≤ l.limitDescendantCount
  descendantSize : ∀ a ∈ pool.ancestors hash,
    ∑ d ∈ pool.descendants a, pool.txSize d ≤ l.limitDescendantSize

/-- The totals of an entry leave room for one descendant more. -/
def HasRoom (l : PackageLimits) (nTxSize : ℕ) (e : CTxMemPoolEntry) : Prop :=
  e.nSizeWithDescendants + nTxSize ≤ l.limitDescendantSize ∧
    e.nCountWithDescendants + 1 ≤ l.limitDescendantCount

variable (pool) in
/-- The pool has room for a new transaction. -/
structure Fits (tx : CTransaction) (l : PackageLimits) : Prop where
  count : (pool.ancestorsOf tx).card + 1 ≤ l.limitAncestorCount
  size : tx.getSerializeSize + ∑ a ∈ pool.ancestorsOf tx, pool.txSize a ≤ l.limitAncestorSize
  room : ∀ a ∈ pool.ancestorsOf tx, ∀ e, pool.mapTx.lookup a = some e →
    HasRoom l tx.getSerializeSize e

theorem withinLimits_iff (hc : pool.Consistent) (hnew : pool.IsNew tx)
    (hadd : Added pool (.of tx nFee) (pool.ancestorsOf tx) pool') :
    pool'.WithinLimits tx.hash l ↔ pool.Fits tx l := by
  have hanc : pool'.ancestors tx.hash = pool.ancestorsOf tx := hadd.ancestors_new hnew
  have hsize : pool'.txSize tx.hash = tx.getSerializeSize := hadd.txSize_new
  have hold : ∀ a ∈ pool.mapTx, pool'.txSize a = pool.txSize a := fun a ha =>
    hadd.txSize_old fun heq => hnew.absent (heq ▸ ha)
  have hsum : ∑ a ∈ pool'.ancestors tx.hash, pool'.txSize a =
      ∑ a ∈ pool.ancestorsOf tx, pool.txSize a := by
    rw [hanc]
    exact Finset.sum_congr rfl fun a ha => hold a (mem_of_mem_ancestorsOf ha)
  -- the descendants of an ancestor, and their sizes
  have hroom : ∀ a ∈ pool.ancestorsOf tx, ∀ e, pool.mapTx.lookup a = some e →
      (HasRoom l tx.getSerializeSize e ↔
        ∑ d ∈ pool'.descendants a, pool'.txSize d ≤ l.limitDescendantSize ∧
          (pool'.descendants a).card ≤ l.limitDescendantCount) := by
    intro a ha e he
    have hdesc : pool'.descendants a = insert tx.hash (pool.descendants a) :=
      hadd.descendants_ancestor hnew ha
    have hout : tx.hash ∉ pool.descendants a := fun hmem =>
      hnew.absent (mem_descendants.mp hmem).1
    have hsame : ∑ d ∈ pool.descendants a, pool'.txSize d = ∑ d ∈ pool.descendants a, pool.txSize d :=
      Finset.sum_congr rfl fun d hd => hold d (mem_descendants.mp hd).1
    rw [HasRoom, hc.size a e he, hc.count a e he, hdesc, Finset.sum_insert hout,
      Finset.card_insert_of_notMem hout, hsize, hsame]
    rw [← Nat.cast_sum]
    generalize ∑ d ∈ pool.descendants a, pool.txSize d = sizes
    generalize tx.getSerializeSize = nTxSize
    omega
  constructor
  · intro h
    refine ⟨?_, ?_, fun a ha e he => (hroom a ha e he).mpr ⟨?_, ?_⟩⟩
    · exact hanc ▸ h.ancestorCount
    · exact hsize ▸ hsum ▸ h.ancestorSize
    · exact h.descendantSize a (hanc ▸ ha)
    · exact h.descendantCount a (hanc ▸ ha)
  · intro h
    have hroom' : ∀ a ∈ pool'.ancestors tx.hash,
        ∑ d ∈ pool'.descendants a, pool'.txSize d ≤ l.limitDescendantSize ∧
          (pool'.descendants a).card ≤ l.limitDescendantCount := by
      intro a ha
      rw [hanc] at ha
      obtain ⟨e, he, -⟩ := hc.clean (mem_of_mem_ancestorsOf ha)
      exact (hroom a ha e he).mp (h.room a ha e he)
    refine ⟨?_, ?_, fun a ha => (hroom' a ha).2, fun a ha => (hroom' a ha).1⟩
    · rw [hanc]
      exact h.count
    · rw [hsize, hsum]
      exact h.size

/-! ### The two loops over parents -/

section Loops

variable {n : ℕ} {seen stage stage' : Finset UInt256} {errString : String}

def inPool (pool : CTxMemPool) (vin : List CTxIn) : Finset UInt256 :=
  (vin.map fun i => i.prevout.hash).toFinset.filter (· ∈ pool.mapTx)

theorem inPool_cons (i : CTxIn) (vin : List CTxIn) : pool.inPool (i :: vin) =
    if i.prevout.hash ∈ pool.mapTx then insert i.prevout.hash (pool.inPool vin)
    else pool.inPool vin := by
  unfold inPool
  rw [List.map_cons, List.toFinset_cons, Finset.filter_insert]

theorem searchParents_ok : ∀ {vin : List CTxIn} {stage : Finset UInt256},
    pool.searchParents n vin stage = .ok stage' →
      stage' = stage ∪ pool.inPool vin ∧ (stage' = stage ∨ stage'.card + 1 ≤ n) := by
  intro vin
  induction vin with
  | nil =>
    intro stage h
    obtain rfl : stage = stage' := by simpa [searchParents] using h
    exact ⟨by simp [inPool], .inl rfl⟩
  | cons i vin ih =>
    intro stage h
    rw [searchParents] at h
    rw [inPool_cons]
    by_cases hmem : i.prevout.hash ∈ pool.mapTx
    · rw [if_pos hmem] at h ⊢
      by_cases hlimit : n < (insert i.prevout.hash stage).card + 1
      · simp only [if_pos hlimit, reduceCtorEq] at h
      · simp only [if_neg hlimit] at h
        obtain ⟨heq, hcount⟩ := ih h
        refine ⟨?_, .inr ?_⟩
        · rw [heq, Finset.insert_union, Finset.union_insert]
        · rcases hcount with rfl | hcount
          · exact Nat.not_lt.mp hlimit
          · exact hcount
    · rw [if_neg hmem] at h ⊢
      exact ih h

theorem searchParents_error : ∀ {vin : List CTxIn} {stage : Finset UInt256},
    pool.searchParents n vin stage = .error errString → n < (stage ∪ pool.inPool vin).card + 1 := by
  intro vin
  induction vin with
  | nil =>
    intro stage h
    simp [searchParents] at h
  | cons i vin ih =>
    intro stage h
    rw [searchParents] at h
    rw [inPool_cons]
    by_cases hmem : i.prevout.hash ∈ pool.mapTx
    · rw [if_pos hmem] at h ⊢
      rw [Finset.union_insert, ← Finset.insert_union]
      by_cases hlimit : n < (insert i.prevout.hash stage).card + 1
      · have hle : (insert i.prevout.hash stage).card ≤
            (insert i.prevout.hash stage ∪ pool.inPool vin).card :=
          Finset.card_le_card Finset.subset_union_left
        omega
      · simp only [if_neg hlimit] at h
        exact ih h
    · rw [if_neg hmem] at h ⊢
      exact ih h

theorem stage_parent (phash : UInt256) (phashes : List UInt256) :
    (if phash ∈ seen then stage else insert phash stage) ∪ (phashes.toFinset \ seen) =
      stage ∪ ((phash :: phashes).toFinset \ seen) := by
  rw [List.toFinset_cons]
  by_cases hmem : phash ∈ seen
  · rw [if_pos hmem, Finset.insert_sdiff_of_mem _ hmem]
  · rw [if_neg hmem, Finset.insert_sdiff_of_notMem _ hmem, Finset.insert_union,
      Finset.union_insert]

theorem stageParents_ok : ∀ {phashes : List UInt256} {stage : Finset UInt256},
    stageParents n seen phashes stage = .ok stage' →
      stage' = stage ∪ (phashes.toFinset \ seen) ∧
        (stage' = stage ∨ stage'.card + seen.card + 1 ≤ n) := by
  intro phashes
  induction phashes with
  | nil =>
    intro stage h
    obtain rfl : stage = stage' := by simpa [stageParents] using h
    exact ⟨by simp, .inl rfl⟩
  | cons phash phashes ih =>
    intro stage h
    rw [stageParents] at h
    rw [← stage_parent]
    by_cases hlimit : n < (if phash ∈ seen then stage else insert phash stage).card + seen.card + 1
    · simp only [if_pos hlimit, reduceCtorEq] at h
    · simp only [if_neg hlimit] at h
      obtain ⟨heq, hcount⟩ := ih h
      refine ⟨heq, .inr ?_⟩
      rcases hcount with rfl | hcount
      · exact Nat.not_lt.mp hlimit
      · exact hcount

theorem stageParents_error : ∀ {phashes : List UInt256} {stage : Finset UInt256},
    stageParents n seen phashes stage = .error errString →
      n < (stage ∪ (phashes.toFinset \ seen)).card + seen.card + 1 := by
  intro phashes
  induction phashes with
  | nil =>
    intro stage h
    simp [stageParents] at h
  | cons phash phashes ih =>
    intro stage h
    rw [stageParents] at h
    rw [← stage_parent]
    by_cases hlimit : n < (if phash ∈ seen then stage else insert phash stage).card + seen.card + 1
    · have hle : (if phash ∈ seen then stage else insert phash stage).card ≤
          ((if phash ∈ seen then stage else insert phash stage) ∪ (phashes.toFinset \ seen)).card :=
        Finset.card_le_card Finset.subset_union_left
      omega
    · simp only [if_neg hlimit] at h
      exact ih h

end Loops

/-! ### The walk -/

variable (pool) in
def linkedParents (h : UInt256) : Finset UInt256 := (pool.getMemPoolParents h).getD ∅

theorem mem_linkedParents (hc : pool.Consistent) {p h : UInt256} :
    p ∈ pool.linkedParents h ↔ pool.Spends p h := by
  unfold linkedParents getMemPoolParents
  cases hlinks : pool.mapLinks.lookup h with
  | none =>
    have hout : h ∉ pool.mapTx := fun hmem =>
      AList.lookup_eq_none.mp hlinks ((hc.linked h).mpr hmem)
    have hnot : ¬ pool.Spends p h := fun hspends => hout hspends.mem_right
    simp [hnot]
  | some links => simpa using hc.parents h links hlinks p

theorem reach_linkedParents (hc : pool.Consistent) {h x : UInt256} :
    Worklists.Reach pool.linkedParents h x ↔ Relation.ReflTransGen pool.Spends x h :=
  Worklists.reach_iff_swap fun _ _ => mem_linkedParents hc

theorem getMemPoolParents_eq (hc : pool.Consistent) (ha : a ∈ pool.mapTx) :
    pool.getMemPoolParents a = some (pool.linkedParents a) := by
  obtain ⟨links, hlinks⟩ :=
    Option.isSome_iff_exists.mp (AList.lookup_isSome.mpr ((hc.linked a).mpr ha))
  simp [linkedParents, getMemPoolParents, hlinks]

/-- What is seen and staged, and what the tests have shown. -/
structure Walk (pool : CTxMemPool) (tx : CTransaction) (l : PackageLimits) (w : AncestorWalk) :
    Prop where
  collects : Worklists.Collects pool.linkedParents (pool.parentsIn tx) w.parentHashes w.setAncestors
  total : w.totalSizeWithAncestors = tx.getSerializeSize + ∑ a ∈ w.setAncestors, pool.txSize a
  count : w.parentHashes ∪ w.setAncestors = ∅ ∨
    w.parentHashes.card + w.setAncestors.card + 1 ≤ l.limitAncestorCount
  size : w.setAncestors = ∅ ∨ w.totalSizeWithAncestors ≤ l.limitAncestorSize
  room : ∀ a ∈ w.setAncestors, ∀ e, pool.mapTx.lookup a = some e →
    HasRoom l tx.getSerializeSize e

namespace Walk

theorem mem_ancestorsOf (hw : Walk pool tx l w) (hc : pool.Consistent)
    (ha : a ∈ w.setAncestors ∪ w.parentHashes) : a ∈ pool.ancestorsOf tx := by
  obtain ⟨root, hroot, hreach⟩ := hw.collects.reached a ha
  exact CTxMemPool.mem_ancestorsOf.mpr ⟨root, hroot, (reach_linkedParents hc).mp hreach⟩

theorem finished (hw : Walk pool tx l w) (hc : pool.Consistent) (hempty : w.parentHashes = ∅) :
    w.setAncestors = pool.ancestorsOf tx ∧ (pool.parentsIn tx ≠ ∅ → pool.Fits tx l) := by
  have hcollects := hw.collects
  rw [hempty] at hcollects
  have hset : w.setAncestors = pool.ancestorsOf tx := by
    ext x
    rw [hcollects.mem_iff, CTxMemPool.mem_ancestorsOf]
    simp only [reach_linkedParents hc]
  refine ⟨hset, fun hparents => ?_⟩
  -- with a parent, there is an ancestor, and its pass has made the tests
  have hne : w.setAncestors ≠ ∅ := by
    intro hnone
    refine hparents (Finset.subset_empty.mp ?_)
    simpa [hnone] using hcollects.started
  refine ⟨?_, ?_, ?_⟩
  · rcases hw.count with hnone | hcount
    · exact absurd (Finset.union_eq_empty.mp hnone).2 hne
    · rw [hempty, Finset.card_empty, hset] at hcount
      omega
  · rcases hw.size with hnone | hsize
    · exact absurd hnone hne
    · rw [hw.total, hset] at hsize
      exact hsize
  · intro a ha
    exact hw.room a (hset ▸ ha)

theorem total_insert (hw : Walk pool tx l w) (ha : a ∈ w.parentHashes)
    (he : pool.mapTx.lookup a = some e) : w.totalSizeWithAncestors + e.nTxSize =
      tx.getSerializeSize + ∑ x ∈ insert a w.setAncestors, pool.txSize x := by
  have hseen : a ∉ w.setAncestors := Finset.disjoint_left.mp hw.collects.disjoint ha
  have hsize : pool.txSize a = e.nTxSize := by simp [txSize, he]
  rw [Finset.sum_insert hseen, hw.total, hsize]
  omega

end Walk

theorem ancestorError_eq_none {nTxSize total : ℕ} :
    ancestorError l nTxSize a e total = none ↔
      HasRoom l nTxSize e ∧ total ≤ l.limitAncestorSize := by
  unfold ancestorError HasRoom
  split
  · simp
    omega
  · split
    · simp
      omega
    · split
      · simp
        omega
      · simp
        omega

theorem ancestorPass_cases (hc : pool.Consistent) (hw : Walk pool tx l w) (order : EntryOrder) :
    (w.parentHashes = ∅ ∧ pool.ancestorPass order l tx.getSerializeSize w =
        .inr (some ⟨w.setAncestors, none⟩)) ∨
      ∃ a e, a ∈ w.parentHashes ∧ pool.mapTx.lookup a = some e ∧
        ((∃ err, ancestorError l tx.getSerializeSize a e (w.totalSizeWithAncestors + e.nTxSize) =
              some err ∧
            pool.ancestorPass order l tx.getSerializeSize w =
              .inr (some ⟨insert a w.setAncestors, some err⟩)) ∨
          (ancestorError l tx.getSerializeSize a e (w.totalSizeWithAncestors + e.nTxSize) = none ∧
            ((∃ err, stageParents l.limitAncestorCount (insert a w.setAncestors)
                  (order.visit (pool.linkedParents a)) (w.parentHashes.erase a) = .error err ∧
                pool.ancestorPass order l tx.getSerializeSize w =
                  .inr (some ⟨insert a w.setAncestors, some err⟩)) ∨
              ∃ stage', stageParents l.limitAncestorCount (insert a w.setAncestors)
                  (order.visit (pool.linkedParents a)) (w.parentHashes.erase a) = .ok stage' ∧
                pool.ancestorPass order l tx.getSerializeSize w =
                  .inl ⟨insert a w.setAncestors, stage',
                    w.totalSizeWithAncestors + e.nTxSize⟩))) := by
  unfold ancestorPass
  cases hfirst : order.first w.parentHashes with
  | none => exact .inl ⟨EntryOrder.eq_empty_of_first hfirst, rfl⟩
  | some a =>
    have ha : a ∈ w.parentHashes := EntryOrder.mem_of_first hfirst
    have hmem : a ∈ pool.mapTx :=
      mem_of_mem_ancestorsOf (hw.mem_ancestorsOf hc (Finset.mem_union_right _ ha))
    obtain ⟨e, he, -⟩ := hc.clean hmem
    refine .inr ⟨a, e, ha, he, ?_⟩
    simp only [he, getMemPoolParents_eq hc hmem]
    cases herr : ancestorError l tx.getSerializeSize a e (w.totalSizeWithAncestors + e.nTxSize) with
    | some err => exact .inl ⟨err, rfl, rfl⟩
    | none =>
      refine .inr ⟨rfl, ?_⟩
      cases hstage : stageParents l.limitAncestorCount (insert a w.setAncestors)
          (order.visit (pool.linkedParents a)) (w.parentHashes.erase a) with
      | error err => exact .inl ⟨err, rfl, rfl⟩
      | ok stage' => exact .inr ⟨stage', rfl, rfl⟩

theorem not_fits_of_ancestorError (hc : pool.Consistent) (hw : Walk pool tx l w) {err : String}
    (ha : a ∈ w.parentHashes) (he : pool.mapTx.lookup a = some e)
    (herr : ancestorError l tx.getSerializeSize a e (w.totalSizeWithAncestors + e.nTxSize) =
      some err) : ¬ pool.Fits tx l := by
  intro hfits
  have hanc : a ∈ pool.ancestorsOf tx := hw.mem_ancestorsOf hc (Finset.mem_union_right _ ha)
  have hsub : insert a w.setAncestors ⊆ pool.ancestorsOf tx := by
    intro x hx
    rcases Finset.mem_insert.mp hx with rfl | hx
    · exact hanc
    · exact hw.mem_ancestorsOf hc (Finset.mem_union_left _ hx)
  have hsum : ∑ x ∈ insert a w.setAncestors, pool.txSize x ≤
      ∑ x ∈ pool.ancestorsOf tx, pool.txSize x :=
    Finset.sum_le_sum_of_subset hsub
  have hnone : ancestorError l tx.getSerializeSize a e (w.totalSizeWithAncestors + e.nTxSize) =
      none := by
    refine ancestorError_eq_none.mpr ⟨hfits.room a hanc e he, ?_⟩
    rw [hw.total_insert ha he]
    exact (Nat.add_le_add_left hsum _).trans hfits.size
  simp [hnone] at herr

theorem staged_eq (hw : Walk pool tx l w) (ha : a ∈ w.parentHashes) (order : EntryOrder) :
    Worklists.Collects pool.linkedParents (pool.parentsIn tx)
      (w.parentHashes.erase a ∪
        ((order.visit (pool.linkedParents a)).toFinset \ insert a w.setAncestors))
      (insert a w.setAncestors) := by
  have hvisit : (order.visit (pool.linkedParents a)).toFinset = pool.linkedParents a := by
    ext x
    simp
  rw [hvisit]
  exact hw.collects.round ha

theorem not_fits_of_stageParents (hc : pool.Consistent) (hw : Walk pool tx l w) {err : String}
    (ha : a ∈ w.parentHashes)
    (herr : stageParents l.limitAncestorCount (insert a w.setAncestors)
      (order.visit (pool.linkedParents a)) (w.parentHashes.erase a) = .error err) :
    ¬ pool.Fits tx l := by
  intro hfits
  have hcollects := staged_eq hw ha order
  have hlt := stageParents_error herr
  have hle := Finset.card_le_card fun x hx => by
    obtain ⟨root, hroot, hreach⟩ := hcollects.reached x hx
    exact mem_ancestorsOf.mpr ⟨root, hroot, (reach_linkedParents hc).mp hreach⟩
  rw [Finset.card_union_of_disjoint hcollects.disjoint.symm] at hle
  have hcount := hfits.count
  omega

theorem Walk.pass (hc : pool.Consistent) {w' : AncestorWalk} (hw : Walk pool tx l w)
    (hpass : pool.ancestorPass order l tx.getSerializeSize w = .inl w') :
    Walk pool tx l w' ∧
      (pool.hashes \ w'.setAncestors).card < (pool.hashes \ w.setAncestors).card := by
  rcases ancestorPass_cases hc hw order with ⟨-, heq⟩ | ⟨a, e, ha, he, ⟨err, -, heq⟩ |
    ⟨herr, ⟨err, -, heq⟩ | ⟨stage', hstage, heq⟩⟩⟩
  · simp [heq] at hpass
  · simp [heq] at hpass
  · simp [heq] at hpass
  obtain rfl := Sum.inl.inj (heq.symm.trans hpass)
  obtain ⟨hroom, htotal⟩ := ancestorError_eq_none.mp herr
  obtain ⟨rfl, hcount⟩ := stageParents_ok hstage
  have hseen : a ∉ w.setAncestors := Finset.disjoint_left.mp hw.collects.disjoint ha
  refine ⟨⟨staged_eq hw ha order, hw.total_insert ha he, .inr ?_, .inr htotal, ?_⟩, ?_⟩
  · rcases hcount with hnothing | hcount
    · -- nothing has been staged, and `a` has moved from the stage
      rw [hnothing, Finset.card_erase_of_mem ha, Finset.card_insert_of_notMem hseen]
      have hpos : 0 < w.parentHashes.card := Finset.card_pos.mpr ⟨a, ha⟩
      rcases hw.count with hnone | hcount
      · exact absurd ((Finset.union_eq_empty.mp hnone).1 ▸ ha) (Finset.notMem_empty a)
      · omega
    · exact hcount
  · intro x hx e' he'
    rcases Finset.mem_insert.mp hx with rfl | hx
    · obtain rfl := Option.some.inj (he.symm.trans he')
      exact hroom
    · exact hw.room x hx e' he'
  · refine hw.collects.card_sdiff_lt ha fun x hx => mem_hashes.mpr ?_
    exact mem_of_mem_ancestorsOf (hw.mem_ancestorsOf hc (Finset.mem_union_right _ hx))

variable (pool) in
def RightResult (tx : CTransaction) (l : PackageLimits) (result : AncestorResult) : Prop :=
  (result.errString = none → result.setAncestors = pool.ancestorsOf tx ∧
      (pool.parentsIn tx ≠ ∅ → pool.Fits tx l)) ∧
    (result.errString ≠ none → ¬ pool.Fits tx l)

theorem Walk.stop (hc : pool.Consistent) {r : Option AncestorResult} (hw : Walk pool tx l w)
    (hpass : pool.ancestorPass order l tx.getSerializeSize w = .inr r) :
    ∃ result, r = some result ∧ pool.RightResult tx l result := by
  rcases ancestorPass_cases hc hw order with ⟨hempty, heq⟩ | ⟨a, e, ha, he, ⟨err, herr, heq⟩ |
    ⟨herr, ⟨err, hstage, heq⟩ | ⟨stage', hstage, heq⟩⟩⟩
  · obtain rfl := Sum.inr.inj (heq.symm.trans hpass)
    exact ⟨_, rfl, fun _ => hw.finished hc hempty, fun h => absurd rfl h⟩
  · obtain rfl := Sum.inr.inj (heq.symm.trans hpass)
    exact ⟨_, rfl, fun h => absurd h (by simp), fun _ => not_fits_of_ancestorError hc hw ha he herr⟩
  · obtain rfl := Sum.inr.inj (heq.symm.trans hpass)
    exact ⟨_, rfl, fun h => absurd h (by simp), fun _ => not_fits_of_stageParents hc hw ha hstage⟩
  · simp [heq] at hpass

/-! ### The verdict -/

theorem Walk.start {stage : Finset UInt256}
    (hsearch : pool.searchParents l.limitAncestorCount tx.vin ∅ = .ok stage) :
    Walk pool tx l ⟨∅, stage, tx.getSerializeSize⟩ := by
  obtain ⟨rfl, hcount⟩ := searchParents_ok hsearch
  have hparents : ∅ ∪ pool.inPool tx.vin = pool.parentsIn tx := Finset.empty_union _
  rw [hparents] at hcount ⊢
  refine ⟨.start _ _, by simp, ?_, .inl rfl, fun a ha => absurd ha (Finset.notMem_empty a)⟩
  rcases hcount with hnone | hcount
  · exact .inl (by simp [hnone])
  · exact .inr hcount

theorem calculateMemPoolAncestors_returns (hc : pool.Consistent) (order : EntryOrder) (tx nFee l) :
    ∃ r, pool.CalculateMemPoolAncestors order (.of tx nFee) l true r := by
  unfold CalculateMemPoolAncestors startParents
  rw [if_pos rfl]
  cases hsearch : pool.searchParents l.limitAncestorCount
      (CTxMemPoolEntry.of tx nFee).tx.vin ∅ with
  | error err => exact ⟨_, rfl⟩
  | ok stage =>
    exact Loops.ends_of_measure (fun w => (pool.hashes \ w.setAncestors).card)
      (fun w w' hw hpass => hw.pass hc hpass) (Walk.start hsearch)

theorem calculateMemPoolAncestors_right (hc : pool.Consistent) {r : Option AncestorResult}
    (h : pool.CalculateMemPoolAncestors order (.of tx nFee) l true r) :
    ∃ result, r = some result ∧ pool.RightResult tx l result := by
  unfold CalculateMemPoolAncestors startParents at h
  rw [if_pos rfl] at h
  cases hsearch : pool.searchParents l.limitAncestorCount
      (CTxMemPoolEntry.of tx nFee).tx.vin ∅ with
  | error err =>
    rw [hsearch] at h
    refine ⟨_, h, fun hnone => absurd hnone (by simp), fun _ hfits => ?_⟩
    have hlt := searchParents_error hsearch
    have hle : (∅ ∪ pool.inPool tx.vin).card ≤ (pool.ancestorsOf tx).card := by
      refine Finset.card_le_card fun x hx => mem_ancestorsOf.mpr ⟨x, ?_, .refl⟩
      simpa [inPool] using hx
    have hcount := hfits.count
    rw [CTxMemPoolEntry.of_tx] at hlt
    omega
  | ok stage =>
    rw [hsearch] at h
    exact h.post (I := Walk pool tx l)
      (Q := fun r => ∃ result, r = some result ∧ pool.RightResult tx l result)
      (fun w w' hw hpass => (hw.pass hc hpass).1) (fun w r hw hpass => hw.stop hc hpass)
      (Walk.start hsearch)

theorem calculateMemPoolAncestors_of_no_parent (hnone : pool.parentsIn tx = ∅)
    {r : Option AncestorResult}
    (h : pool.CalculateMemPoolAncestors order (.of tx nFee) l true r) : r = some ⟨∅, none⟩ := by
  have hout : ∀ i ∈ tx.vin, i.prevout.hash ∉ pool.mapTx := by
    intro i hi hmem
    have hparent : i.prevout.hash ∈ pool.parentsIn tx := mem_parentsIn.mpr ⟨⟨i, hi, rfl⟩, hmem⟩
    simp [hnone] at hparent
  have hsearch : ∀ vin : List CTxIn, (∀ i ∈ vin, i.prevout.hash ∉ pool.mapTx) →
      pool.searchParents l.limitAncestorCount vin ∅ = .ok ∅ := by
    intro vin hvin
    induction vin with
    | nil => rfl
    | cons i vin ih =>
      rw [searchParents, if_neg (hvin i List.mem_cons_self)]
      exact ih fun i' hi' => hvin i' (List.mem_cons_of_mem i hi')
  unfold CalculateMemPoolAncestors startParents at h
  rw [if_pos rfl, CTxMemPoolEntry.of_tx, hsearch tx.vin hout] at h
  have hfirst : order.first ∅ = none := by
    cases hf : order.first ∅ with
    | none => rfl
    | some a => exact absurd (EntryOrder.mem_of_first hf) (Finset.notMem_empty a)
  have hstop : pool.ancestorPass order l tx.getSerializeSize ⟨∅, ∅, tx.getSerializeSize⟩ =
      .inr (some ⟨∅, none⟩) := by
    simp [ancestorPass, hfirst]
  exact h.unique (.stop hstop)

variable (pool) in
structure AncestorsLimited (entry : CTxMemPoolEntry) (l : PackageLimits) : Prop where
  returns : ∀ order, ∃ result, pool.CalculateMemPoolAncestors order entry l true (some result)
  accepted : ∀ order result, pool.CalculateMemPoolAncestors order entry l true (some result) →
    result.errString = none → result.setAncestors = pool.ancestorsOf entry.tx ∧
      ∃ pool', pool.addUnchecked order entry.tx.hash entry result.setAncestors = some pool' ∧
        pool'.WithinLimits entry.tx.hash l
  rejected : ∀ order result, pool.CalculateMemPoolAncestors order entry l true (some result) →
    result.errString ≠ none →
      ∃ pool', pool.addUnchecked order entry.tx.hash entry (pool.ancestorsOf entry.tx) =
          some pool' ∧ ¬ pool'.WithinLimits entry.tx.hash l
  anyOrder : ∀ order order' result result',
    pool.CalculateMemPoolAncestors order entry l true (some result) →
    pool.CalculateMemPoolAncestors order' entry l true (some result') →
      (result.errString = none ↔ result'.errString = none) ∧
        (result.errString = none → result.setAncestors = result'.setAncestors)

theorem ancestorsLimited_of_right (hc : pool.Consistent) (hnew : pool.IsNew tx)
    (hright : ∀ order result, pool.CalculateMemPoolAncestors order (.of tx nFee) l true
      (some result) → (result.errString = none → result.setAncestors = pool.ancestorsOf tx) ∧
        (result.errString = none ↔ pool.Fits tx l)) :
    pool.AncestorsLimited (.of tx nFee) l := by
  have hadded : ∀ order, ∃ pool', pool.addUnchecked order tx.hash (.of tx nFee)
      (pool.ancestorsOf tx) = some pool' ∧ (pool'.WithinLimits tx.hash l ↔ pool.Fits tx l) := by
    intro order
    obtain ⟨pool', heq, hadd⟩ := addUnchecked_added order (.of tx nFee) hnew
      hc.linked fun a ha => hc.clean (mem_of_mem_ancestorsOf ha)
    exact ⟨pool', heq, withinLimits_iff hc hnew hadd⟩
  constructor
  case returns =>
    intro order
    obtain ⟨r, hr⟩ := calculateMemPoolAncestors_returns hc order tx nFee l
    obtain ⟨result, rfl, -⟩ := calculateMemPoolAncestors_right hc hr
    exact ⟨result, hr⟩
  case accepted =>
    intro order result hcalc hnone
    obtain ⟨hset, hfits⟩ := hright order result hcalc
    obtain ⟨pool', heq, hlimits⟩ := hadded order
    rw [hset hnone]
    exact ⟨rfl, pool', heq, hlimits.mpr (hfits.mp hnone)⟩
  case rejected =>
    intro order result hcalc herr
    obtain ⟨pool', heq, hlimits⟩ := hadded order
    exact ⟨pool', heq, fun hwithin =>
      herr ((hright order result hcalc).2.mpr (hlimits.mp hwithin))⟩
  case anyOrder =>
    intro order order' result result' hcalc hcalc'
    obtain ⟨hset, hfits⟩ := hright order result hcalc
    obtain ⟨hset', hfits'⟩ := hright order' result' hcalc'
    refine ⟨hfits.trans hfits'.symm, fun hnone => ?_⟩
    rw [hset hnone, hset' (hfits'.mpr (hfits.mp hnone))]

theorem ancestorsLimited_of_parent (hc : pool.Consistent) (hnew : pool.IsNew tx)
    (hparent : ∃ i ∈ tx.vin, i.prevout.hash ∈ pool.mapTx) :
    pool.AncestorsLimited (.of tx nFee) l := by
  obtain ⟨i, hi, hmem⟩ := hparent
  have hne : pool.parentsIn tx ≠ ∅ := by
    intro hnone
    have hin : i.prevout.hash ∈ pool.parentsIn tx := mem_parentsIn.mpr ⟨⟨i, hi, rfl⟩, hmem⟩
    simp [hnone] at hin
  refine ancestorsLimited_of_right hc hnew fun order result hcalc => ?_
  obtain ⟨_, heq, hok, herr⟩ := calculateMemPoolAncestors_right hc hcalc
  obtain rfl := Option.some.inj heq
  refine ⟨fun hnone => (hok hnone).1, fun hnone => (hok hnone).2 hne, fun hfits => ?_⟩
  by_contra hsome
  exact herr hsome hfits

theorem ancestorsLimited_iff_of_no_parent (hc : pool.Consistent) (hnew : pool.IsNew tx)
    (hparent : ¬ ∃ i ∈ tx.vin, i.prevout.hash ∈ pool.mapTx) :
    pool.AncestorsLimited (.of tx nFee) l ↔
      1 ≤ l.limitAncestorCount ∧ tx.getSerializeSize ≤ l.limitAncestorSize := by
  have hnone : pool.parentsIn tx = ∅ := by
    ext x
    simp only [mem_parentsIn, Finset.notMem_empty, iff_false, not_and]
    rintro ⟨i, hi, rfl⟩ hmem
    exact hparent ⟨i, hi, hmem⟩
  have hanc : pool.ancestorsOf tx = ∅ := by
    ext x
    simp [mem_ancestorsOf, hnone]
  have hfits : pool.Fits tx l ↔
      1 ≤ l.limitAncestorCount ∧ tx.getSerializeSize ≤ l.limitAncestorSize := by
    constructor
    · intro h
      exact ⟨by simpa [hanc] using h.count, by simpa [hanc] using h.size⟩
    · rintro ⟨hcount, hsize⟩
      exact ⟨by simpa [hanc] using hcount, by simpa [hanc] using hsize, by simp [hanc]⟩
  rw [← hfits]
  constructor
  · intro h
    obtain ⟨result, hcalc⟩ := h.returns .byNumber
    obtain rfl := Option.some.inj (calculateMemPoolAncestors_of_no_parent hnone hcalc)
    obtain ⟨-, pool', heq, hwithin⟩ := h.accepted .byNumber _ hcalc rfl
    obtain ⟨pool₁, heq₁, hadd⟩ := addUnchecked_added .byNumber (.of tx nFee) hnew
      hc.linked fun a ha => hc.clean (mem_of_mem_ancestorsOf ha)
    rw [hanc] at heq₁
    obtain rfl := Option.some.inj (heq.symm.trans heq₁)
    exact (withinLimits_iff hc hnew hadd).mp hwithin
  · intro h
    refine ancestorsLimited_of_right hc hnew fun order result hcalc => ?_
    obtain rfl := Option.some.inj (calculateMemPoolAncestors_of_no_parent hnone hcalc)
    exact ⟨fun _ => hanc.symm, fun _ => h, fun _ => rfl⟩

/-- **The limits are enforced exactly when the transaction has a parent in the pool**, or is
itself within them. -/
theorem ancestorsLimited_iff (hc : pool.Consistent) (hnew : pool.IsNew tx) (nFee : ℤ)
    (l : PackageLimits) : pool.AncestorsLimited (.of tx nFee) l ↔
      (∃ i ∈ tx.vin, i.prevout.hash ∈ pool.mapTx) ∨
        (1 ≤ l.limitAncestorCount ∧ tx.getSerializeSize ≤ l.limitAncestorSize) := by
  by_cases hparent : ∃ i ∈ tx.vin, i.prevout.hash ∈ pool.mapTx
  · exact iff_of_true (ancestorsLimited_of_parent hc hnew hparent) (.inl hparent)
  · rw [or_iff_right hparent]
    exact ancestorsLimited_iff_of_no_parent hc hnew hparent

def spendingTx (hash spent : UInt256) (n : ℕ) : CTransaction where
  hash := hash
  nVersion := 1
  vin := [⟨⟨spent, 0⟩, [], 4294967295⟩]
  vout := List.replicate n (.of 1000 (List.replicate 25 0))
  nLockTime := 0

def parentPool : CTxMemPool :=
  (empty.addUnchecked .byNumber 1 (.of (spendingTx 1 7 1) 100) ∅).getD empty

theorem isNew_empty (hself : ∀ i ∈ tx.vin, i.prevout.hash ≠ tx.hash) : empty.IsNew tx where
  absent := by simp [empty]
  noChild x e he := absurd he (by simp [empty])
  notSelf := hself

theorem parentPool_added :
    Added empty (.of (spendingTx 1 7 1) 100) ∅ parentPool ∧ parentPool.Consistent := by
  have hnone : empty.ancestorsOf (spendingTx 1 7 1) = ∅ := by
    ext x
    simp [mem_ancestorsOf, empty]
  have hnew : empty.IsNew (spendingTx 1 7 1) := isNew_empty (by decide)
  obtain ⟨pool', heq, hadd, hc⟩ := consistent_empty.addUnchecked .byNumber 100 hnew (by decide)
    (by simp [empty])
  rw [hnone] at heq hadd
  have hpool : parentPool = pool' := congrArg (Option.getD · empty) heq
  exact hpool ▸ ⟨hadd, hc⟩

theorem isNew_parentPool : parentPool.IsNew (spendingTx 2 1 3) where
  absent := by
    rw [parentPool_added.1.mem_iff]
    simp [empty, spendingTx]
  noChild x e he := by
    by_cases hx : x = (1 : UInt256)
    · subst hx
      obtain rfl := Option.some.inj (parentPool_added.1.newTx.symm.trans he)
      rw [withDelta_tx]
      decide
    · rw [parentPool_added.1.oldTx x hx] at he
      simp [empty] at he
  notSelf := by decide

theorem ancestorsLimited_iff_child : parentPool.AncestorsLimited (.of (spendingTx 2 1 3) 50)
    ⟨25, 101000, 25, 101000⟩ :=
  (ancestorsLimited_iff parentPool_added.2 isNew_parentPool 50 _).mpr
    (.inl ⟨_, List.mem_singleton_self _, parentPool_added.1.mem_iff.mpr (.inl rfl)⟩)

/-- **A transaction without a parent in the pool is accepted whatever its size.** -/
theorem oversized_accepted :
    ¬ empty.AncestorsLimited (.of (spendingTx 2 7 40) 5000) ⟨25, 1000, 25, 101000⟩ := by
  rw [ancestorsLimited_iff_of_no_parent consistent_empty (isNew_empty (by decide))
    (by simp [empty])]
  decide +kernel

end CTxMemPool
end Stonecoin
