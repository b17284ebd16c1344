/-
What the indexes of the memory pool are kept for: the spending relation between its
transactions, and the totals of each entry over everything that depends on it.
-/
import Stonecoin.TxMemPool
import Mathlib.Algebra.Order.BigOperators.Group.Finset

namespace Stonecoin
namespace CTxMemPool

variable {order : EntryOrder} {pool pool' : CTxMemPool} {entry e : CTxMemPoolEntry}
  {S : Finset UInt256} {h x p c : UInt256} {tx : CTransaction}

/-! ### What addUnchecked leaves -/

variable (pool) in
def parentsIn (tx : CTransaction) : Finset UInt256 :=
  (tx.vin.map fun i => i.prevout.hash).toFinset.filter (· ∈ pool.mapTx)

@[simp] theorem mem_parentsIn :
    p ∈ pool.parentsIn tx ↔ (∃ i ∈ tx.vin, i.prevout.hash = p) ∧ p ∈ pool.mapTx := by
  simp [parentsIn]

variable (pool) in
/-- An entry with the fee that `PrioritiseTransaction` has left for it. -/
def withDelta (hash : UInt256) (entry : CTxMemPoolEntry) : CTxMemPoolEntry :=
  match pool.mapDeltas.lookup hash with
  | none => entry
  | some delta => if delta = 0 then entry else entry.updateFeeDelta delta

theorem withDelta_eq (hash : UInt256) (entry : CTxMemPoolEntry) :
    ∃ feeDelta fees, pool.withDelta hash entry =
      { entry with feeDelta := feeDelta, nModFeesWithDescendants := fees } ∧
      fees - entry.nModFeesWithDescendants = feeDelta - entry.feeDelta := by
  unfold withDelta
  split
  · exact ⟨entry.feeDelta, entry.nModFeesWithDescendants, rfl, by omega⟩
  · split
    · exact ⟨entry.feeDelta, entry.nModFeesWithDescendants, rfl, by omega⟩
    · exact ⟨_, _, rfl, by simp⟩

@[simp] theorem withDelta_tx (hash : UInt256) : (pool.withDelta hash entry).tx = entry.tx := by
  obtain ⟨feeDelta, fees, heq, -⟩ := pool.withDelta_eq hash entry
  rw [heq]

@[simp] theorem withDelta_nTxSize (hash : UInt256) :
    (pool.withDelta hash entry).nTxSize = entry.nTxSize := by
  obtain ⟨feeDelta, fees, heq, -⟩ := pool.withDelta_eq hash entry
  rw [heq]

/-- `addUnchecked` has added an entry, `S` are the ancestors that it was given. -/
structure Added (pool : CTxMemPool) (entry : CTxMemPoolEntry) (S : Finset UInt256)
    (pool' : CTxMemPool) : Prop where
  newTx : pool'.mapTx.lookup entry.tx.hash = some (pool.withDelta entry.tx.hash entry)
  oldTx : ∀ x, x ≠ entry.tx.hash → pool'.mapTx.lookup x =
    if x ∈ S then (pool.mapTx.lookup x).map fun e => e.withDescendant entry.nTxSize
      (pool.withDelta entry.tx.hash entry).getModifiedFee 1
    else pool.mapTx.lookup x
  newLinks : pool'.mapLinks.lookup entry.tx.hash = some ⟨pool.parentsIn entry.tx, ∅⟩
  oldLinks : ∀ x, x ≠ entry.tx.hash → pool'.mapLinks.lookup x =
    if x ∈ pool.parentsIn entry.tx then
      some ⟨(pool.mapLinks.links x).parents, insert entry.tx.hash (pool.mapLinks.links x).children⟩
    else pool.mapLinks.lookup x
  nextTx : pool'.mapNextTx = recordInputs entry.tx pool.mapNextTx
  size : pool'.totalTxSize = pool.totalTxSize + entry.nTxSize

theorem prioritised_eq (hash : UInt256) (he : pool.mapTx.lookup h = some e) :
    ∃ mapTx, pool.prioritised hash h = some { pool with mapTx := mapTx } ∧
      mapTx.lookup h = some (pool.withDelta hash e) ∧
      ∀ x, x ≠ h → mapTx.lookup x = pool.mapTx.lookup x := by
  unfold prioritised withDelta
  cases hdelta : pool.mapDeltas.lookup hash with
  | none => exact ⟨pool.mapTx, rfl, he, fun _ _ => rfl⟩
  | some delta =>
    by_cases hzero : delta = 0
    · refine ⟨pool.mapTx, ?_, ?_, fun _ _ => rfl⟩
      · simp [hzero]
      · simpa [hzero] using he
    · refine ⟨pool.mapTx.insert h (e.updateFeeDelta delta), ?_, ?_, fun x hx => ?_⟩
      · have hmodify : OrderedMaps.modify (fun e => some (e.updateFeeDelta delta)) pool.mapTx h =
            some (pool.mapTx.insert h (e.updateFeeDelta delta)) := OrderedMaps.modify_eq he rfl
        simp only [if_neg hzero, hmodify, Option.map_some]
      · simp [hzero]
      · exact AList.lookup_insert_ne hx

theorem lookup_foldl_updateParent {l : List UInt256} {m : TxLinksMap} {links : TxLinks}
    (hm : m.lookup h = some links) :
    (l.foldl (fun m pit => m.updateParent h pit true) m).lookup h =
        some ⟨links.parents ∪ l.toFinset, links.children⟩ ∧
      ∀ x, x ≠ h → (l.foldl (fun m pit => m.updateParent h pit true) m).lookup x = m.lookup x := by
  induction l generalizing m links with
  | nil => exact ⟨by simpa using hm, fun _ _ => rfl⟩
  | cons a l ih =>
    have hlinks : m.links h = links := by simp [TxLinksMap.links, hm]
    have hstep : (m.updateParent h a true).lookup h =
        some ⟨insert a links.parents, links.children⟩ := by
      simp [TxLinksMap.updateParent, hlinks]
    obtain ⟨hnew, hold⟩ := ih hstep
    refine ⟨?_, fun x hx => ?_⟩
    · rw [List.foldl_cons, hnew]
      simp
    · rw [List.foldl_cons, hold x hx]
      exact AList.lookup_insert_ne hx

variable (order) in
theorem updateAncestorsOf_eq {links : TxLinks} (hlinks : pool.mapLinks.lookup h = some links)
    (he : pool.mapTx.lookup h = some e)
    (hS : ∀ a ∈ S, ∃ e, pool.mapTx.lookup a = some e ∧ 0 < e.nCountWithDescendants ∧
      0 < e.nSizeWithDescendants) :
    ∃ mapTx, pool.updateAncestorsOf order true h S = some { pool with
        mapLinks := (order.visit links.parents).foldl (fun m piter => m.updateChild piter h true)
          pool.mapLinks
        mapTx := mapTx } ∧
      ∀ x, mapTx.lookup x =
        if x ∈ S then (pool.mapTx.lookup x).map fun e' =>
          e'.withDescendant e.nTxSize e.getModifiedFee 1
        else pool.mapTx.lookup x := by
  have hmodify : ∀ a ∈ order.visit S, ∃ e', pool.mapTx.lookup a = some e' ∧
      e'.updateState (1 * e.nTxSize) (1 * e.getModifiedFee) 1 =
        some (e'.withDescendant e.nTxSize e.getModifiedFee 1) := by
    intro a ha
    obtain ⟨e', he', hcount, hsize⟩ := hS a ((order.mem_visit S a).mp ha)
    refine ⟨e', he', ?_⟩
    rw [one_mul, one_mul]
    exact CTxMemPoolEntry.updateState_add _ hcount hsize
  obtain ⟨mapTx, hfold, hlookup⟩ := OrderedMaps.foldlM_modify (order.nodup S) hmodify
  refine ⟨mapTx, ?_, fun x => by simpa using hlookup x⟩
  have hparents : pool.getMemPoolParents h = some links.parents := by
    simp [getMemPoolParents, hlinks]
  unfold updateAncestorsOf
  rw [hparents, he]
  simp only [if_true, Option.bind_eq_bind, Option.bind_some]
  rw [hfold]
  rfl

variable (pool) in
/-- A transaction that is new to the pool: no transaction of the pool spends its outputs, nor does
it itself.  What returns from a disconnected block need not be new. -/
structure IsNew (tx : CTransaction) : Prop where
  absent : tx.hash ∉ pool.mapTx
  noChild : ∀ x e, pool.mapTx.lookup x = some e → ∀ i ∈ e.tx.vin, i.prevout.hash ≠ tx.hash
  notSelf : ∀ i ∈ tx.vin, i.prevout.hash ≠ tx.hash

variable (order entry) in
theorem addUnchecked_added (hnew : pool.IsNew entry.tx)
    (hlinks : ∀ x, x ∈ pool.mapLinks ↔ x ∈ pool.mapTx)
    (hS : ∀ a ∈ S, ∃ e, pool.mapTx.lookup a = some e ∧ 0 < e.nCountWithDescendants ∧
      0 < e.nSizeWithDescendants) :
    ∃ pool', pool.addUnchecked order entry.tx.hash entry S = some pool' ∧
      Added pool entry S pool' := by
  have habsent : entry.tx.hash ∉ pool.mapTx := hnew.absent
  have hnoLinks : entry.tx.hash ∉ pool.mapLinks := fun hmem => habsent ((hlinks _).mp hmem)
  have hself : entry.tx.hash ∉ (entry.tx.vin.map fun i => i.prevout.hash).toFinset := by
    simpa using hnew.notSelf
  -- the entry and its links are inserted
  let pool₁ : CTxMemPool := { pool with
    mapTx := pool.mapTx.insert entry.tx.hash entry
    mapLinks := pool.mapLinks.insert entry.tx.hash ⟨∅, ∅⟩ }
  have hentry : pool₁.mapTx.lookup entry.tx.hash = some entry := AList.lookup_insert pool.mapTx
  obtain ⟨mapTx₂, hprior, htx₂, hold₂⟩ := pool₁.prioritised_eq entry.tx.hash hentry
  let pool₃ : CTxMemPool := { pool₁ with
    mapTx := mapTx₂
    mapNextTx := recordInputs entry.tx pool.mapNextTx }
  have hmem₃ : ∀ x, x ≠ entry.tx.hash → (x ∈ pool₃.mapTx ↔ x ∈ pool.mapTx) := by
    intro x hx
    rw [← AList.lookup_isSome, ← AList.lookup_isSome, show pool₃.mapTx = mapTx₂ from rfl, hold₂ x hx,
      show pool₁.mapTx = pool.mapTx.insert entry.tx.hash entry from rfl, AList.lookup_insert_ne hx]
  -- its parents are linked
  have hlinks₁ : pool₃.mapLinks.lookup entry.tx.hash = some ⟨∅, ∅⟩ :=
    AList.lookup_insert pool.mapLinks
  let pool₄ : CTxMemPool := { pool₃ with
    mapLinks := pool₃.linkParents order entry.tx.hash
      (entry.tx.vin.map fun i => i.prevout.hash).toFinset }
  obtain ⟨hnew₄, hold₄⟩ : pool₄.mapLinks.lookup entry.tx.hash = some ⟨pool.parentsIn entry.tx, ∅⟩ ∧
      ∀ x, x ≠ entry.tx.hash → pool₄.mapLinks.lookup x = pool.mapLinks.lookup x := by
    obtain ⟨hnew₄, hold₄⟩ := lookup_foldl_updateParent (l := (order.visit
      (entry.tx.vin.map fun i => i.prevout.hash).toFinset).filter (· ∈ pool₃.mapTx)) hlinks₁
    refine ⟨hnew₄.trans ?_, fun x hx => (hold₄ x hx).trans (AList.lookup_insert_ne hx)⟩
    congr 2
    ext x
    by_cases hx : x = entry.tx.hash
    · subst hx
      simp [hself, habsent]
    · simp [hmem₃ x hx]
  -- its ancestors are updated
  have hold₁ : ∀ x, x ≠ entry.tx.hash → mapTx₂.lookup x = pool.mapTx.lookup x := fun x hx =>
    (hold₂ x hx).trans (AList.lookup_insert_ne hx)
  have hS₄ : ∀ a ∈ S, ∃ e, pool₄.mapTx.lookup a = some e ∧ 0 < e.nCountWithDescendants ∧
      0 < e.nSizeWithDescendants := by
    intro a ha
    obtain ⟨e, he, hclean⟩ := hS a ha
    have hne : a ≠ entry.tx.hash := by
      rintro rfl
      exact habsent (AList.lookup_isSome.mp (by simp [he]))
    exact ⟨e, (hold₁ a hne).trans he, hclean⟩
  obtain ⟨mapTx₅, hupdate, hlookup₅⟩ :=
    pool₄.updateAncestorsOf_eq order hnew₄ htx₂ hS₄
  refine ⟨{ pool₄ with
    mapLinks := (order.visit (pool.parentsIn entry.tx)).foldl
      (fun m piter => m.updateChild piter entry.tx.hash true) pool₄.mapLinks
    mapTx := mapTx₅
    nTransactionsUpdated := (pool.nTransactionsUpdated + 1) % 2 ^ 32
    totalTxSize := pool.totalTxSize + entry.nTxSize }, ?_, ?added⟩
  · have hinsert : OrderedMaps.insertAbsent pool.mapTx ⟨entry.tx.hash, entry⟩ = pool₁.mapTx :=
      if_neg habsent
    have hinsertLinks : OrderedMaps.insertAbsent pool.mapLinks ⟨entry.tx.hash, ⟨∅, ∅⟩⟩ =
        pool₁.mapLinks := if_neg hnoLinks
    simp only [addUnchecked, hinsert, hinsertLinks, Option.bind_eq_bind]
    rw [show ({ pool with mapTx := pool₁.mapTx, mapLinks := pool₁.mapLinks } : CTxMemPool) = pool₁
      from rfl, hprior]
    simp only [Option.bind_some, htx₂, withDelta_tx]
    exact congrArg (Option.bind · _) hupdate
  case added =>
    have hout : entry.tx.hash ∉ S := by
      intro hmem
      obtain ⟨e, he, -⟩ := hS _ hmem
      exact habsent (AList.lookup_isSome.mp (by simp [he]))
    have hparents : entry.tx.hash ∉ pool.parentsIn entry.tx := fun hmem =>
      habsent (mem_parentsIn.mp hmem).2
    have hlookupLinks := pool₄.mapLinks.lookup_foldl_updateChild
      (order.nodup (pool.parentsIn entry.tx)) entry.tx.hash
    constructor
    case newTx =>
      show mapTx₅.lookup entry.tx.hash = _
      rw [hlookup₅, if_neg hout]
      exact htx₂
    case oldTx =>
      intro x hx
      show mapTx₅.lookup x = _
      rw [hlookup₅, show pool₄.mapTx = mapTx₂ from rfl, hold₁ x hx, withDelta_nTxSize]
      rfl
    case newLinks =>
      exact (hlookupLinks entry.tx.hash).trans (by simpa [hparents] using hnew₄)
    case oldLinks =>
      intro x hx
      have heq : pool₄.mapLinks.links x = pool.mapLinks.links x := by
        simp only [TxLinksMap.links, hold₄ x hx]
      exact (hlookupLinks x).trans (by simp only [EntryOrder.mem_visit, heq, hold₄ x hx])
    case nextTx => rfl
    case size => rfl

/-! ### The spending relation -/

variable (pool) in
def hashes : Finset UInt256 := pool.mapTx.keys.toFinset

@[simp] theorem mem_hashes : x ∈ pool.hashes ↔ x ∈ pool.mapTx := by
  simp [hashes, AList.mem_keys]

variable (pool) in
def txOf (h : UInt256) : Option CTransaction := (pool.mapTx.lookup h).map CTxMemPoolEntry.tx

variable (pool) in
def txSize (h : UInt256) : ℕ := ((pool.mapTx.lookup h).map CTxMemPoolEntry.nTxSize).getD 0

variable (pool) in
def txFee (h : UInt256) : ℤ := ((pool.mapTx.lookup h).map CTxMemPoolEntry.getModifiedFee).getD 0

variable (pool) in
/-- `c` has an input that spends an output of `p`, and both are in the pool. -/
def Spends (p c : UInt256) : Prop :=
  p ∈ pool.mapTx ∧ ∃ tx, pool.txOf c = some tx ∧ ∃ i ∈ tx.vin, i.prevout.hash = p

theorem txOf_eq_some : pool.txOf h = some tx ↔ ∃ e, pool.mapTx.lookup h = some e ∧ e.tx = tx := by
  simp [txOf]

theorem Spends.mem_right (hspends : pool.Spends p c) : c ∈ pool.mapTx := by
  obtain ⟨-, tx, htx, -⟩ := hspends
  obtain ⟨e, he, -⟩ := txOf_eq_some.mp htx
  exact AList.lookup_isSome.mp (by simp [he])

theorem mem_of_reach_left (hreach : Relation.ReflTransGen pool.Spends p c) (hc : c ∈ pool.mapTx) :
    p ∈ pool.mapTx := by
  rcases Relation.ReflTransGen.cases_head hreach with rfl | ⟨_, hspends, -⟩
  · exact hc
  · exact hspends.1

open Classical in
variable (pool) in
/-- The descendants of a transaction, itself included. -/
noncomputable def descendants (h : UInt256) : Finset UInt256 :=
  pool.hashes.filter (Relation.ReflTransGen pool.Spends h)

open Classical in
variable (pool) in
noncomputable def ancestors (h : UInt256) : Finset UInt256 :=
  pool.hashes.filter fun x => Relation.TransGen pool.Spends x h

open Classical in
variable (pool) in
noncomputable def ancestorsOf (tx : CTransaction) : Finset UInt256 :=
  pool.hashes.filter fun x => ∃ p ∈ pool.parentsIn tx, Relation.ReflTransGen pool.Spends x p

theorem mem_descendants :
    x ∈ pool.descendants h ↔ x ∈ pool.mapTx ∧ Relation.ReflTransGen pool.Spends h x := by
  simp [descendants]

theorem mem_ancestors :
    x ∈ pool.ancestors h ↔ x ∈ pool.mapTx ∧ Relation.TransGen pool.Spends x h := by
  simp [ancestors]

theorem mem_ancestorsOf : x ∈ pool.ancestorsOf tx ↔
    ∃ p ∈ pool.parentsIn tx, Relation.ReflTransGen pool.Spends x p := by
  have hmem : (∃ p ∈ pool.parentsIn tx, Relation.ReflTransGen pool.Spends x p) →
      x ∈ pool.mapTx := by
    rintro ⟨p, hp, hreach⟩
    exact mem_of_reach_left hreach (mem_parentsIn.mp hp).2
  simp only [ancestorsOf, Finset.mem_filter, mem_hashes, and_iff_right_iff_imp]
  exact hmem

theorem mem_of_mem_ancestorsOf (hx : x ∈ pool.ancestorsOf tx) : x ∈ pool.mapTx := by
  obtain ⟨p, hp, hreach⟩ := mem_ancestorsOf.mp hx
  exact mem_of_reach_left hreach (mem_parentsIn.mp hp).2

variable (pool) in
/-- The indexes of the pool agree with its transactions, and no entry is dirty. -/
structure Consistent : Prop where
  keyed : ∀ h e, pool.mapTx.lookup h = some e → e.tx.hash = h
  sized : ∀ h e, pool.mapTx.lookup h = some e → e.nTxSize = e.tx.getSerializeSize
  linked : ∀ h, h ∈ pool.mapLinks ↔ h ∈ pool.mapTx
  parents : ∀ h links, pool.mapLinks.lookup h = some links →
    ∀ p, p ∈ links.parents ↔ pool.Spends p h
  children : ∀ h links, pool.mapLinks.lookup h = some links →
    ∀ c, c ∈ links.children ↔ pool.Spends h c
  nextTx : ∀ o point, pool.mapNextTx.lookup o = some point ↔
    pool.txOf point.ptx.hash = some point.ptx ∧
      (point.ptx.vin[point.n]?).map CTxIn.prevout = some o
  count : ∀ h e, pool.mapTx.lookup h = some e →
    e.nCountWithDescendants = (pool.descendants h).card
  size : ∀ h e, pool.mapTx.lookup h = some e →
    e.nSizeWithDescendants = ∑ d ∈ pool.descendants h, (pool.txSize d : ℤ)
  fees : ∀ h e, pool.mapTx.lookup h = some e →
    e.nModFeesWithDescendants = ∑ d ∈ pool.descendants h, pool.txFee d
  total : pool.totalTxSize = ∑ h ∈ pool.hashes, pool.txSize h

/-! ### A transaction that has been added -/

namespace Added

theorem map_lookup_old (hadd : Added pool entry S pool') {β : Type} {f : CTxMemPoolEntry → β}
    (hf : ∀ e size fee count, f (e.withDescendant size fee count) = f e)
    (hx : x ≠ entry.tx.hash) : (pool'.mapTx.lookup x).map f = (pool.mapTx.lookup x).map f := by
  rw [hadd.oldTx x hx]
  split
  · rw [Option.map_map]
    congr 1
    funext e
    exact hf e _ _ _
  · rfl

theorem txOf_new (hadd : Added pool entry S pool') : pool'.txOf entry.tx.hash = some entry.tx := by
  simp [txOf, hadd.newTx]

theorem txOf_old (hadd : Added pool entry S pool') (hx : x ≠ entry.tx.hash) :
    pool'.txOf x = pool.txOf x :=
  hadd.map_lookup_old (fun _ _ _ _ => rfl) hx

theorem txSize_new (hadd : Added pool entry S pool') :
    pool'.txSize entry.tx.hash = entry.nTxSize := by
  simp [txSize, hadd.newTx]

theorem txSize_old (hadd : Added pool entry S pool') (hx : x ≠ entry.tx.hash) :
    pool'.txSize x = pool.txSize x :=
  congrArg (Option.getD · 0) (hadd.map_lookup_old (fun _ _ _ _ => rfl) hx)

theorem txFee_new (hadd : Added pool entry S pool') :
    pool'.txFee entry.tx.hash = (pool.withDelta entry.tx.hash entry).getModifiedFee := by
  simp [txFee, hadd.newTx]

theorem txFee_old (hadd : Added pool entry S pool') (hx : x ≠ entry.tx.hash) :
    pool'.txFee x = pool.txFee x :=
  congrArg (Option.getD · 0) (hadd.map_lookup_old (fun _ _ _ _ => rfl) hx)

theorem mem_iff (hadd : Added pool entry S pool') :
    x ∈ pool'.mapTx ↔ x = entry.tx.hash ∨ x ∈ pool.mapTx := by
  by_cases hx : x = entry.tx.hash
  · subst hx
    simp [← AList.lookup_isSome, hadd.newTx]
  · have hsome := congrArg Option.isSome (hadd.txOf_old hx)
    simp only [txOf, Option.isSome_map] at hsome
    simp [← AList.lookup_isSome, hsome, hx]

theorem hashes_eq (hadd : Added pool entry S pool') :
    pool'.hashes = insert entry.tx.hash pool.hashes := by
  ext x
  simp [hadd.mem_iff]

theorem mem_links (hadd : Added pool entry S pool')
    (hlinks : ∀ x, x ∈ pool.mapLinks ↔ x ∈ pool.mapTx) :
    x ∈ pool'.mapLinks ↔ x ∈ pool'.mapTx := by
  rw [hadd.mem_iff, ← hlinks]
  by_cases hx : x = entry.tx.hash
  · subst hx
    simp [← AList.lookup_isSome, hadd.newLinks]
  · by_cases hparent : x ∈ pool.parentsIn entry.tx
    · have hmem : x ∈ pool.mapLinks := (hlinks x).mpr (mem_parentsIn.mp hparent).2
      simp only [hmem, or_true, iff_true]
      rw [← AList.lookup_isSome, hadd.oldLinks x hx, if_pos hparent, Option.isSome_some]
    · rw [← AList.lookup_isSome, hadd.oldLinks x hx, if_neg hparent, AList.lookup_isSome,
        or_iff_right hx]

theorem spends_iff (hadd : Added pool entry S pool') (hnew : pool.IsNew entry.tx) :
    pool'.Spends p c ↔
    pool.Spends p c ∨ (c = entry.tx.hash ∧ p ∈ pool.parentsIn entry.tx) := by
  by_cases hc : c = entry.tx.hash
  · subst hc
    have hold : ¬ pool.Spends p entry.tx.hash := fun hspends => hnew.absent hspends.mem_right
    rw [or_iff_right hold]
    simp only [true_and, mem_parentsIn, Spends, hadd.txOf_new, hadd.mem_iff, Option.some.injEq,
      exists_eq_left']
    constructor
    · rintro ⟨rfl | hmem, i, hi, heq⟩
      · exact absurd heq (hnew.notSelf i hi)
      · exact ⟨⟨i, hi, heq⟩, hmem⟩
    · rintro ⟨hspends, hmem⟩
      exact ⟨.inr hmem, hspends⟩
  · simp only [Spends, hadd.txOf_old hc, hadd.mem_iff, hc, false_and, or_false]
    constructor
    · rintro ⟨rfl | hmem, tx, htx, i, hi, heq⟩
      · obtain ⟨e, he, rfl⟩ := txOf_eq_some.mp htx
        exact absurd heq (hnew.noChild c e he i hi)
      · exact ⟨hmem, tx, htx, i, hi, heq⟩
    · rintro ⟨hmem, hspends⟩
      exact ⟨.inr hmem, hspends⟩

theorem reach_iff (hadd : Added pool entry S pool') (hnew : pool.IsNew entry.tx) :
    Relation.ReflTransGen pool'.Spends p x ↔
    Relation.ReflTransGen pool.Spends p x ∨ (x = entry.tx.hash ∧ p ∈ pool.ancestorsOf entry.tx) := by
  have hsink : ∀ b, ¬ pool'.Spends entry.tx.hash b := by
    intro b hspends
    rcases (hadd.spends_iff hnew).mp hspends with hspends | ⟨-, hmem⟩
    · exact hnew.absent hspends.1
    · exact hnew.absent (mem_parentsIn.mp hmem).2
  rw [mem_ancestorsOf]
  exact Worklists.reach_add_sink (fun _ _ => hadd.spends_iff hnew) hsink

theorem ancestors_new (hadd : Added pool entry S pool') (hnew : pool.IsNew entry.tx) :
    pool'.ancestors entry.tx.hash = pool.ancestorsOf entry.tx := by
  ext x
  rw [mem_ancestors]
  constructor
  · rintro ⟨-, hreach⟩
    obtain ⟨p, hreach, hspends⟩ := Relation.TransGen.tail'_iff.mp hreach
    rcases (hadd.spends_iff hnew).mp hspends with hspends | ⟨-, hp⟩
    · exact absurd hspends.mem_right hnew.absent
    · rcases (hadd.reach_iff hnew).mp hreach with hreach | ⟨rfl, -⟩
      · exact mem_ancestorsOf.mpr ⟨p, hp, hreach⟩
      · exact absurd (mem_parentsIn.mp hp).2 hnew.absent
  · intro hx
    refine ⟨hadd.mem_iff.mpr (.inr (mem_of_mem_ancestorsOf hx)), ?_⟩
    obtain ⟨p, hp, hreach⟩ := mem_ancestorsOf.mp hx
    exact Relation.TransGen.tail'_iff.mpr ⟨p, (hadd.reach_iff hnew).mpr (.inl hreach),
      (hadd.spends_iff hnew).mpr (.inr ⟨rfl, hp⟩)⟩

theorem descendants_ancestor (hadd : Added pool entry S pool') (hnew : pool.IsNew entry.tx)
    (hx : x ∈ pool.ancestorsOf entry.tx) :
    pool'.descendants x = insert entry.tx.hash (pool.descendants x) := by
  ext y
  by_cases hy : y = entry.tx.hash
  · subst hy
    simp [mem_descendants, hadd.mem_iff, hadd.reach_iff hnew, hx]
  · simp [mem_descendants, hadd.mem_iff, hadd.reach_iff hnew, hy]

theorem descendants_other (hadd : Added pool entry S pool') (hnew : pool.IsNew entry.tx)
    (hne : x ≠ entry.tx.hash) (hx : x ∉ pool.ancestorsOf entry.tx) :
    pool'.descendants x = pool.descendants x := by
  ext y
  by_cases hy : y = entry.tx.hash
  · subst hy
    have hout : ¬ Relation.ReflTransGen pool.Spends x entry.tx.hash := by
      intro hreach
      rcases Relation.ReflTransGen.cases_tail hreach with heq | ⟨_, -, hspends⟩
      · exact hne heq.symm
      · exact hnew.absent hspends.mem_right
    simp [mem_descendants, hadd.reach_iff hnew, hx, hout]
  · simp [mem_descendants, hadd.mem_iff, hadd.reach_iff hnew, hx, hy]

theorem descendants_new (hadd : Added pool entry S pool') (hnew : pool.IsNew entry.tx) :
    pool'.descendants entry.tx.hash = {entry.tx.hash} := by
  have hself : entry.tx.hash ∉ pool.ancestorsOf entry.tx := fun hmem =>
    hnew.absent (mem_of_mem_ancestorsOf hmem)
  ext y
  rw [mem_descendants, hadd.reach_iff hnew, Finset.mem_singleton]
  constructor
  · rintro ⟨-, hreach | ⟨-, hmem⟩⟩
    · rcases Relation.ReflTransGen.cases_head hreach with heq | ⟨_, hspends, -⟩
      · exact heq.symm
      · exact absurd hspends.1 hnew.absent
    · exact absurd hmem hself
  · rintro rfl
    exact ⟨hadd.mem_iff.mpr (.inl rfl), .inl .refl⟩

theorem cases_old (hadd : Added pool entry S pool') (hx : x ≠ entry.tx.hash)
    (he : pool'.mapTx.lookup x = some e) :
    ∃ e₀, pool.mapTx.lookup x = some e₀ ∧ ((x ∈ S ∧ e = e₀.withDescendant entry.nTxSize
      (pool.withDelta entry.tx.hash entry).getModifiedFee 1) ∨ (x ∉ S ∧ e = e₀)) := by
  rw [hadd.oldTx x hx] at he
  by_cases hS : x ∈ S
  · rw [if_pos hS] at he
    obtain ⟨e₀, he₀, rfl⟩ := Option.map_eq_some_iff.mp he
    exact ⟨e₀, he₀, .inl ⟨hS, rfl⟩⟩
  · rw [if_neg hS] at he
    exact ⟨e, he, .inr ⟨hS, rfl⟩⟩

theorem sum_descendants {β : Type} [AddCommMonoid β] (hadd : Added pool entry S pool')
    (hnew : pool.IsNew entry.tx) {f f' : UInt256 → β}
    (hf : ∀ x, x ≠ entry.tx.hash → f' x = f x) (hx : x ∈ pool.mapTx) :
    ∑ d ∈ pool'.descendants x, f' d =
      (if x ∈ pool.ancestorsOf entry.tx then f' entry.tx.hash else 0) +
        ∑ d ∈ pool.descendants x, f d := by
  have hne : x ≠ entry.tx.hash := fun heq => hnew.absent (heq ▸ hx)
  have hout : entry.tx.hash ∉ pool.descendants x := fun hmem =>
    hnew.absent (mem_descendants.mp hmem).1
  have hsame : ∑ d ∈ pool.descendants x, f' d = ∑ d ∈ pool.descendants x, f d :=
    Finset.sum_congr rfl fun d hd => hf d fun heq => hout (heq ▸ hd)
  by_cases hmem : x ∈ pool.ancestorsOf entry.tx
  · rw [hadd.descendants_ancestor hnew hmem, Finset.sum_insert hout, if_pos hmem, hsame]
  · rw [hadd.descendants_other hnew hne hmem, if_neg hmem, zero_add, hsame]

end Added

/-! ### Consistent pools -/

theorem recordInputs_spec {vin : List CTxIn} {k : ℕ} {m : AList fun _ : COutPoint => CInPoint}
    {o : COutPoint} {point : CInPoint} (hnodup : (vin.map CTxIn.prevout).Nodup) :
    ((vin.zipIdx k).foldl (fun m i => m.insert i.1.prevout ⟨tx, i.2⟩) m).lookup o = some point ↔
      (∃ j, point = ⟨tx, k + j⟩ ∧ (vin[j]?).map CTxIn.prevout = some o) ∨
        ((∀ i ∈ vin, i.prevout ≠ o) ∧ m.lookup o = some point) := by
  induction vin generalizing k m with
  | nil => simp
  | cons i vin ih =>
    obtain ⟨hi, hnodup'⟩ := List.nodup_cons.mp hnodup
    have hsplit : (∃ j, point = ⟨tx, k + j⟩ ∧ ((i :: vin)[j]?).map CTxIn.prevout = some o) ↔
        (point = ⟨tx, k⟩ ∧ i.prevout = o) ∨
          ∃ j, point = ⟨tx, k + 1 + j⟩ ∧ (vin[j]?).map CTxIn.prevout = some o := by
      rw [← Nat.or_exists_add_one]
      simp [Nat.add_assoc, Nat.add_comm 1]
    rw [List.zipIdx_cons, List.foldl_cons, ih hnodup', hsplit, List.forall_mem_cons]
    by_cases ho : i.prevout = o
    · subst ho
      have hlater : ¬ ∃ j, point = ⟨tx, k + 1 + j⟩ ∧
          (vin[j]?).map CTxIn.prevout = some i.prevout := by
        rintro ⟨j, -, hj⟩
        obtain ⟨i', hi', heq⟩ := Option.map_eq_some_iff.mp hj
        exact hi (List.mem_map.mpr ⟨i', List.mem_of_getElem? hi', heq⟩)
      have hfresh : ∀ i' ∈ vin, i'.prevout ≠ i.prevout := fun i' hi' heq =>
        hi (List.mem_map.mpr ⟨i', hi', heq⟩)
      rw [or_iff_right hlater, or_iff_left hlater]
      simpa [@eq_comm _ point] using fun _ => hfresh
    · simp [ho, AList.lookup_insert_ne (Ne.symm ho)]

theorem consistent_empty : empty.Consistent where
  keyed h e he := absurd he (by simp [empty])
  sized h e he := absurd he (by simp [empty])
  linked h := by simp [empty]
  parents h links hl := absurd hl (by simp [empty])
  children h links hl := absurd hl (by simp [empty])
  nextTx o point := by simp [empty, txOf]
  count h e he := absurd he (by simp [empty])
  size h e he := absurd he (by simp [empty])
  fees h e he := absurd he (by simp [empty])
  total := rfl

namespace Consistent

theorem clean (hc : pool.Consistent) (hx : x ∈ pool.mapTx) :
    ∃ e, pool.mapTx.lookup x = some e ∧ 0 < e.nCountWithDescendants ∧
      0 < e.nSizeWithDescendants := by
  obtain ⟨e, he⟩ := Option.isSome_iff_exists.mp (AList.lookup_isSome.mpr hx)
  have hself : x ∈ pool.descendants x := mem_descendants.mpr ⟨hx, .refl⟩
  refine ⟨e, he, ?_, ?_⟩
  · rw [hc.count x e he]
    exact_mod_cast Finset.card_pos.mpr ⟨x, hself⟩
  · rw [hc.size x e he]
    have hpos : 0 < pool.txSize x := by
      rw [txSize, he, Option.map_some, Option.getD_some, hc.sized x e he]
      unfold CTransaction.getSerializeSize
      omega
    have hle : (pool.txSize x : ℤ) ≤ ∑ d ∈ pool.descendants x, (pool.txSize d : ℤ) :=
      Finset.single_le_sum (fun d _ => Int.natCast_nonneg (pool.txSize d)) hself
    omega

theorem old_totals (hc : pool.Consistent)
    (hadd : Added pool entry (pool.ancestorsOf entry.tx) pool') (hnew : pool.IsNew entry.tx)
    (hx : x ≠ entry.tx.hash) (he : pool'.mapTx.lookup x = some e) :
    e.nCountWithDescendants = (pool'.descendants x).card ∧
      e.nSizeWithDescendants = ∑ d ∈ pool'.descendants x, (pool'.txSize d : ℤ) ∧
      e.nModFeesWithDescendants = ∑ d ∈ pool'.descendants x, pool'.txFee d := by
  obtain ⟨e₀, he₀, hcase⟩ := hadd.cases_old hx he
  have hmem : x ∈ pool.mapTx := AList.lookup_isSome.mp (by simp [he₀])
  have hcard : ((pool'.descendants x).card : ℤ) =
      (if x ∈ pool.ancestorsOf entry.tx then 1 else 0) + (pool.descendants x).card := by
    have hone : ∀ y, y ≠ entry.tx.hash → (fun _ => 1 : UInt256 → ℤ) y = 1 := fun _ _ => rfl
    simpa using hadd.sum_descendants hnew hone hmem
  have hsize : ∑ d ∈ pool'.descendants x, (pool'.txSize d : ℤ) =
      (if x ∈ pool.ancestorsOf entry.tx then (pool'.txSize entry.tx.hash : ℤ) else 0) +
        ∑ d ∈ pool.descendants x, (pool.txSize d : ℤ) :=
    hadd.sum_descendants hnew (fun d hd => congrArg Nat.cast (hadd.txSize_old hd)) hmem
  have hfee := hadd.sum_descendants hnew (fun d hd => hadd.txFee_old hd) hmem
  rw [hcard, hsize, hfee, ← hc.count x e₀ he₀, ← hc.size x e₀ he₀, ← hc.fees x e₀ he₀,
    hadd.txSize_new, hadd.txFee_new]
  rcases hcase with ⟨hS, rfl⟩ | ⟨hS, rfl⟩
  · simp only [if_pos hS, CTxMemPoolEntry.withDescendant]
    exact ⟨Int.add_comm _ _, Int.add_comm _ _, Int.add_comm _ _⟩
  · simp only [if_neg hS, Int.zero_add, and_self]

theorem added_links (hc : pool.Consistent) (hadd : Added pool entry S pool')
    (hnew : pool.IsNew entry.tx) {links : TxLinks} (hl : pool'.mapLinks.lookup x = some links) :
    (∀ p, p ∈ links.parents ↔ pool'.Spends p x) ∧ ∀ c, c ∈ links.children ↔ pool'.Spends x c := by
  by_cases hx : x = entry.tx.hash
  · subst hx
    obtain rfl := Option.some.inj (hadd.newLinks.symm.trans hl)
    have hold : ∀ p, ¬ pool.Spends p entry.tx.hash := fun _ hspends =>
      hnew.absent hspends.mem_right
    have hold' : ∀ c, ¬ pool.Spends entry.tx.hash c := fun _ hspends => hnew.absent hspends.1
    have hself : entry.tx.hash ∉ pool.parentsIn entry.tx := fun hmem =>
      hnew.absent (mem_parentsIn.mp hmem).2
    refine ⟨fun p => ?_, fun c => ?_⟩
    · rw [hadd.spends_iff hnew, or_iff_right (hold p), and_iff_right rfl]
    · rw [hadd.spends_iff hnew, or_iff_right (hold' c)]
      simp only [hself, and_false, Finset.notMem_empty]
  · have hnotNew : ∀ p, ¬ (x = entry.tx.hash ∧ p ∈ pool.parentsIn entry.tx) := fun _ h => hx h.1
    rw [hadd.oldLinks x hx] at hl
    by_cases hparent : x ∈ pool.parentsIn entry.tx
    · -- a parent has one child more
      rw [if_pos hparent] at hl
      obtain rfl := Option.some.inj hl
      have hmem : x ∈ pool.mapLinks := (hc.linked x).mpr (mem_parentsIn.mp hparent).2
      obtain ⟨links, hlinks⟩ := Option.isSome_iff_exists.mp (AList.lookup_isSome.mpr hmem)
      have heq : pool.mapLinks.links x = links := by simp [TxLinksMap.links, hlinks]
      refine ⟨fun p => ?_, fun c => ?_⟩
      · rw [heq, hc.parents x links hlinks, hadd.spends_iff hnew, or_iff_left (hnotNew p)]
      · rw [heq, Finset.mem_insert, hc.children x links hlinks, hadd.spends_iff hnew, or_comm]
        simp only [hparent, and_true]
    · rw [if_neg hparent] at hl
      refine ⟨fun p => ?_, fun c => ?_⟩
      · rw [hc.parents x links hl, hadd.spends_iff hnew, or_iff_left (hnotNew p)]
      · rw [hc.children x links hl, hadd.spends_iff hnew]
        simp only [hparent, and_false, or_false]

theorem added_nextTx (hc : pool.Consistent) (hadd : Added pool entry S pool')
    (hnew : pool.IsNew entry.tx) (hnodup : (entry.tx.vin.map CTxIn.prevout).Nodup)
    (hunspent : ∀ i ∈ entry.tx.vin, i.prevout ∉ pool.mapNextTx) (o : COutPoint)
    (point : CInPoint) : pool'.mapNextTx.lookup o = some point ↔
      pool'.txOf point.ptx.hash = some point.ptx ∧
        (point.ptx.vin[point.n]?).map CTxIn.prevout = some o := by
  rw [hadd.nextTx, recordInputs, recordInputs_spec hnodup]
  constructor
  · rintro (⟨j, rfl, hj⟩ | ⟨-, hold⟩)
    · rw [Nat.zero_add]
      exact ⟨hadd.txOf_new, hj⟩
    · obtain ⟨htx, hin⟩ := (hc.nextTx o point).mp hold
      have hne : point.ptx.hash ≠ entry.tx.hash := by
        intro heq
        obtain ⟨e, he, -⟩ := txOf_eq_some.mp htx
        exact hnew.absent (heq ▸ AList.lookup_isSome.mp (by simp [he]))
      exact ⟨(hadd.txOf_old hne).trans htx, hin⟩
  · rintro ⟨htx, hin⟩
    by_cases heq : point.ptx.hash = entry.tx.hash
    · rw [heq, hadd.txOf_new] at htx
      obtain ⟨ptx, n⟩ := point
      obtain rfl : entry.tx = ptx := Option.some.inj htx
      exact .inl ⟨n, by rw [Nat.zero_add], hin⟩
    · rw [hadd.txOf_old heq] at htx
      have hold := (hc.nextTx o point).mpr ⟨htx, hin⟩
      refine .inr ⟨fun i hi hprev => ?_, hold⟩
      exact hunspent i hi (hprev ▸ AList.lookup_isSome.mp (by simp [hold]))

variable (order) in
theorem addUnchecked (hc : pool.Consistent) (nFee : ℤ) (hnew : pool.IsNew tx)
    (hnodup : (tx.vin.map CTxIn.prevout).Nodup)
    (hunspent : ∀ i ∈ tx.vin, i.prevout ∉ pool.mapNextTx) :
    ∃ pool', pool.addUnchecked order tx.hash (.of tx nFee) (pool.ancestorsOf tx) = some pool' ∧
      Added pool (.of tx nFee) (pool.ancestorsOf tx) pool' ∧ pool'.Consistent := by
  obtain ⟨pool', heq, hadd⟩ := addUnchecked_added order (.of tx nFee) hnew
    hc.linked fun a ha => hc.clean (mem_of_mem_ancestorsOf ha)
  refine ⟨pool', heq, hadd, ?_⟩
  have hbase : ∀ x e, pool'.mapTx.lookup x = some e →
      e.tx.hash = x ∧ e.nTxSize = e.tx.getSerializeSize := by
    intro x e he
    by_cases hx : x = tx.hash
    · subst hx
      obtain rfl := Option.some.inj (hadd.newTx.symm.trans he)
      simp [CTxMemPoolEntry.of]
    · obtain ⟨e₀, he₀, ⟨-, rfl⟩ | ⟨-, rfl⟩⟩ := hadd.cases_old hx he
      · exact ⟨hc.keyed x e₀ he₀, hc.sized x e₀ he₀⟩
      · exact ⟨hc.keyed x e he₀, hc.sized x e he₀⟩
  have htotals : ∀ x e, pool'.mapTx.lookup x = some e →
      e.nCountWithDescendants = (pool'.descendants x).card ∧
        e.nSizeWithDescendants = ∑ d ∈ pool'.descendants x, (pool'.txSize d : ℤ) ∧
        e.nModFeesWithDescendants = ∑ d ∈ pool'.descendants x, pool'.txFee d := by
    intro x e he
    by_cases hx : x = tx.hash
    · subst hx
      obtain rfl := Option.some.inj (hadd.newTx.symm.trans he)
      have hdesc : pool'.descendants tx.hash = {tx.hash} := hadd.descendants_new hnew
      have hsize : pool'.txSize tx.hash = tx.getSerializeSize := hadd.txSize_new
      have hfee : pool'.txFee tx.hash = (pool.withDelta tx.hash (.of tx nFee)).getModifiedFee :=
        hadd.txFee_new
      obtain ⟨feeDelta, fees, hdelta, hfees⟩ := pool.withDelta_eq tx.hash (.of tx nFee)
      rw [hdesc, Finset.sum_singleton, Finset.sum_singleton, hsize, hfee,
        show (CTxMemPoolEntry.of tx nFee).tx.hash = tx.hash from rfl, hdelta]
      refine ⟨rfl, rfl, ?_⟩
      simp only [CTxMemPoolEntry.getModifiedFee, CTxMemPoolEntry.of] at hfees ⊢
      omega
    · exact hc.old_totals hadd hnew hx he
  exact {
    keyed := fun x e he => (hbase x e he).1
    sized := fun x e he => (hbase x e he).2
    linked := fun x => hadd.mem_links hc.linked
    parents := fun x links hl => (hc.added_links hadd hnew hl).1
    children := fun x links hl => (hc.added_links hadd hnew hl).2
    nextTx := hc.added_nextTx hadd hnew hnodup hunspent
    count := fun x e he => (htotals x e he).1
    size := fun x e he => (htotals x e he).2.1
    fees := fun x e he => (htotals x e he).2.2
    total := by
      have hout : tx.hash ∉ pool.hashes := fun hmem => hnew.absent (mem_hashes.mp hmem)
      have hnewSize : pool'.txSize tx.hash = tx.getSerializeSize := hadd.txSize_new
      rw [hadd.size, hadd.hashes_eq, CTxMemPoolEntry.of_tx, Finset.sum_insert hout, hnewSize,
        CTxMemPoolEntry.of_nTxSize, hc.total, Nat.add_comm]
      refine congrArg _ (Finset.sum_congr rfl fun x hx => (hadd.txSize_old ?_).symm)
      exact fun heq => hout (heq ▸ hx) }

end Consistent

end CTxMemPool
end Stonecoin
