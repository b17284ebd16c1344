/-
What leaves the memory pool together: `CalculateDescendants` for each of some entries, then
`UpdateForRemoveFromMempool` and `removeUnchecked`.

  * `calculateAllDescendants_iff`: the entries and all that depends on them, in every order.
-/
import Stonecoin.MirroredPool
import Stonecoin.AncestorLimits
import Stonecoin.MapMerge

namespace Stonecoin

@[simp] theorem EntryOrder.toFinset_visit (order : EntryOrder) (s : Finset UInt256) :
    (order.visit s).toFinset = s := by
  ext a
  simp

namespace CTxMemPool

variable {order : EntryOrder} {pool p : CTxMemPool} {roots gone S : Finset UInt256}
  {h it x : UInt256} {e : CTxMemPoolEntry}

theorem mem_of_txOf {tx : CTransaction} (h : pool.txOf x = some tx) : x ∈ pool.mapTx := by
  obtain ⟨e, he, -⟩ := txOf_eq_some.mp h
  exact OrderedMaps.mem_of_lookup he

theorem mem_of_reach_right (h : Relation.ReflTransGen pool.Spends it x) (hit : it ∈ pool.mapTx) :
    x ∈ pool.mapTx := by
  rcases Relation.ReflTransGen.cases_tail h with rfl | ⟨_, -, hlast⟩
  · exact hit
  · exact hlast.mem_right

/-! ### CalculateDescendants -/

variable (pool) in
def linkedChildren (h : UInt256) : Finset UInt256 := (pool.getMemPoolChildren h).getD ∅

theorem getMemPoolChildren_eq (hc : pool.Consistent) (hx : x ∈ pool.mapTx) :
    pool.getMemPoolChildren x = some (pool.linkedChildren x) ∧
      ∀ c, c ∈ pool.linkedChildren x ↔ pool.Spends x c := by
  obtain ⟨links, hlinks⟩ := OrderedMaps.lookup_of_mem ((hc.linked x).mpr hx)
  have heq : pool.linkedChildren x = links.children := by
    simp [linkedChildren, getMemPoolChildren, hlinks]
  rw [heq]
  exact ⟨by simp [getMemPoolChildren, hlinks], hc.children x links hlinks⟩

theorem reach_linkedChildren (hc : pool.Consistent) (hx : x ∈ pool.mapTx) :
    Worklists.Reach pool.linkedChildren x h ↔ Relation.ReflTransGen pool.Spends x h := by
  constructor
  · intro hreach
    suffices hboth : Relation.ReflTransGen pool.Spends x h ∧ h ∈ pool.mapTx from hboth.1
    induction hreach with
    | refl => exact ⟨.refl, hx⟩
    | tail _ hb ih =>
      have hspends := ((getMemPoolChildren_eq hc ih.2).2 _).mp hb
      exact ⟨ih.1.tail hspends, hspends.mem_right⟩
  · exact Relation.ReflTransGen.mono
      (fun a b hab => ((getMemPoolChildren_eq hc hab.1).2 b).mpr hab) x h

/-- What is collected so far. -/
def Descending (pool : CTxMemPool) (roots : Finset UInt256) (w : DescendantWalk) : Prop :=
  Worklists.Collects pool.linkedChildren roots w.stage w.setDescendants

theorem Descending.mem (hw : Descending pool roots w) (hc : pool.Consistent)
    (hroots : roots ⊆ pool.hashes) (hx : x ∈ w.setDescendants ∪ w.stage) :
    x ∈ roots.biUnion pool.descendants := by
  obtain ⟨a, ha, hreach⟩ := hw.reached x hx
  have hmem : a ∈ pool.mapTx := mem_hashes.mp (hroots ha)
  have hspends := (reach_linkedChildren hc hmem).mp hreach
  exact Finset.mem_biUnion.mpr
    ⟨a, ha, mem_descendants.mpr ⟨mem_of_reach_right hspends hmem, hspends⟩⟩

theorem descendantPass_cases (hc : pool.Consistent) (hroots : roots ⊆ pool.hashes)
    {w : DescendantWalk} (hw : Descending pool roots w) (order : EntryOrder) :
    (pool.descendantPass order w = .inr (some (roots.biUnion pool.descendants))) ∨
      ∃ w', pool.descendantPass order w = .inl w' ∧ Descending pool roots w' ∧
        (pool.hashes \ w'.setDescendants).card < (pool.hashes \ w.setDescendants).card := by
  have hin : ∀ y ∈ w.setDescendants ∪ w.stage, y ∈ pool.mapTx := fun y hy => by
    obtain ⟨a, -, ha⟩ := Finset.mem_biUnion.mp (hw.mem hc hroots hy)
    exact (mem_descendants.mp ha).1
  unfold descendantPass
  cases hfirst : order.first w.stage with
  | none =>
    refine .inl (congrArg _ (congrArg some ?_))
    have hempty := EntryOrder.eq_empty_of_first hfirst
    ext y
    refine ⟨fun hy => hw.mem hc hroots (Finset.mem_union_left _ hy), fun hy => ?_⟩
    obtain ⟨a, ha, hay⟩ := Finset.mem_biUnion.mp hy
    have hdone : Worklists.Collects pool.linkedChildren roots ∅ w.setDescendants := hempty ▸ hw
    exact hdone.mem_iff.mpr ⟨a, ha,
      (reach_linkedChildren hc (mem_hashes.mp (hroots ha))).mpr (mem_descendants.mp hay).2⟩
  | some it =>
    have hit := EntryOrder.mem_of_first hfirst
    obtain ⟨hchildren, -⟩ := getMemPoolChildren_eq hc (hin it (Finset.mem_union_right _ hit))
    refine .inr ⟨⟨insert it w.setDescendants, w.stage.erase it ∪
      (pool.linkedChildren it \ insert it w.setDescendants)⟩, ?_, hw.round hit, ?_⟩
    · simp only [hchildren, Finset.sdiff_eq_filter]
    · exact hw.card_sdiff_lt hit fun y hy => mem_hashes.mpr (hin y (Finset.mem_union_right _ hy))

theorem calculateDescendants_iff (hc : pool.Consistent) (hroots : roots ⊆ pool.hashes)
    (hx : x ∈ pool.mapTx) {result : Option (Finset UInt256)} :
    pool.CalculateDescendants order x (roots.biUnion pool.descendants) result ↔
      result = some ((insert x roots).biUnion pool.descendants) := by
  have hroots' : insert x roots ⊆ pool.hashes :=
    Finset.insert_subset (mem_hashes.mpr hx) hroots
  refine Loops.ends_iff (I := Descending pool (insert x roots))
    (fun w => (pool.hashes \ w.setDescendants).card) ?_ ?_ ?_
  · intro w w' hw hpass
    rcases descendantPass_cases hc hroots' hw order with heq | ⟨w₁, heq, hw₁, hlt⟩
    · simp [heq] at hpass
    · obtain rfl := Sum.inl.inj (heq.symm.trans hpass)
      exact ⟨hw₁, hlt⟩
  · intro w r hw hpass
    rcases descendantPass_cases hc hroots' hw order with heq | ⟨w₁, heq, -, -⟩
    · exact Sum.inr.inj (hpass.symm.trans heq)
    · simp [heq] at hpass
  -- what the earlier walks have collected is closed
  · have hself : ∀ a ∈ roots, a ∈ pool.descendants a := fun a ha =>
      mem_descendants.mpr ⟨mem_hashes.mp (hroots ha), .refl⟩
    constructor
    · split
      · exact Finset.disjoint_empty_left _
      · exact Finset.disjoint_singleton_left.mpr ‹_›
    · intro a ha
      rcases Finset.mem_insert.mp ha with rfl | ha
      · by_cases hseen : a ∈ roots.biUnion pool.descendants
        · exact Finset.mem_union_left _ hseen
        · simp [hseen]
      · exact Finset.mem_union_left _ (Finset.mem_biUnion.mpr ⟨a, ha, hself a ha⟩)
    · intro a ha c hac
      obtain ⟨root, hroot, hdesc⟩ := Finset.mem_biUnion.mp ha
      obtain ⟨hmem, hreach⟩ := mem_descendants.mp hdesc
      have hspends := ((getMemPoolChildren_eq hc hmem).2 c).mp hac
      exact Finset.mem_union_left _ (Finset.mem_biUnion.mpr
        ⟨root, hroot, mem_descendants.mpr ⟨hspends.mem_right, hreach.tail hspends⟩⟩)
    · intro y hy
      rcases Finset.mem_union.mp hy with hy | hy
      · obtain ⟨root, hroot, hdesc⟩ := Finset.mem_biUnion.mp hy
        exact ⟨root, Finset.mem_insert_of_mem hroot, (reach_linkedChildren hc
          (mem_hashes.mp (hroots hroot))).mpr (mem_descendants.mp hdesc).2⟩
      · have heq : y = x := by
          split_ifs at hy <;> simp_all
        exact ⟨x, Finset.mem_insert_self x roots, heq ▸ .refl⟩

theorem calculateAllDescendants_iff (hc : pool.Consistent) {entries s : Finset UInt256}
    (hentries : entries ⊆ pool.hashes) : pool.CalculateAllDescendants order entries s ↔
      s = entries.biUnion pool.descendants := by
  obtain ⟨s', rfl, hiff⟩ := Loops.each_iff (P := (· ∈ pool.mapTx)) (s := ∅)
    (I := fun roots s => s = (roots ∩ pool.hashes).biUnion pool.descendants)
    (R := fun it s s' => pool.CalculateDescendants order it s (some s')) (fun a done s ha _ hs => by
      subst hs
      refine ⟨_, rfl, fun t => ?_⟩
      rw [calculateDescendants_iff hc Finset.inter_subset_right ha, Option.some.injEq,
        Finset.insert_inter_of_mem (mem_hashes.mpr ha)]) (order.nodup entries)
    (fun a ha => ⟨mem_hashes.mp (hentries ((order.mem_visit _ a).mp ha)), Finset.notMem_empty a⟩)
    (by simp)
  rw [CalculateAllDescendants, hiff, order.toFinset_visit, Finset.empty_union,
    Finset.inter_eq_left.mpr hentries]

/-! ### The ancestors of an entry -/

variable (p) in
/-- The links lead to entries, and no total comes near the limits that are none. -/
structure Walkable : Prop where
  linked : ∀ x, x ∈ p.mapLinks ↔ x ∈ p.mapTx
  closed : ∀ x, p.linkedParents x ⊆ p.hashes
  card : p.hashes.card < 2 ^ 63
  sizes : ∑ x ∈ p.hashes, p.txSize x < 2 ^ 63
  totals : ∀ x e, p.mapTx.lookup x = some e →
    e.nSizeWithDescendants < 2 ^ 63 ∧ e.nCountWithDescendants < 2 ^ 63

variable (p) in
/-- What is seen and staged, and the size of what is seen. -/
def Ascending (entry : CTxMemPoolEntry) (roots : Finset UInt256) (w : AncestorWalk) : Prop :=
  Worklists.Collects p.linkedParents roots w.parentHashes w.setAncestors ∧
    w.totalSizeWithAncestors = entry.nTxSize + ∑ a ∈ w.setAncestors, p.txSize a

theorem ancestorPass_noLimits (hp : p.Walkable) {entry : CTxMemPoolEntry} {w : AncestorWalk}
    (hentry : p.mapTx.lookup it = some entry) (hw : p.Ascending entry (p.linkedParents it) w)
    (order : EntryOrder) :
    (w.parentHashes = ∅ ∧ p.ancestorPass order noLimits entry.nTxSize w =
        .inr (some ⟨w.setAncestors, none⟩)) ∨
      ∃ w', p.ancestorPass order noLimits entry.nTxSize w = .inl w' ∧
        p.Ascending entry (p.linkedParents it) w' ∧
        (p.hashes \ w'.setAncestors).card < (p.hashes \ w.setAncestors).card := by
  obtain ⟨hcollects, htotal⟩ := hw
  have hin : ∀ y ∈ w.setAncestors ∪ w.parentHashes, y ∈ p.hashes := by
    intro y hy
    obtain ⟨root, hroot, hreach⟩ := hcollects.reached y hy
    rcases Relation.ReflTransGen.cases_tail hreach with rfl | ⟨b, -, hb⟩
    · exact hp.closed it hroot
    · exact hp.closed b hb
  unfold ancestorPass
  cases hfirst : order.first w.parentHashes with
  | none => exact .inl ⟨EntryOrder.eq_empty_of_first hfirst, rfl⟩
  | some a =>
    have ha := EntryOrder.mem_of_first hfirst
    have hmem := hin a (Finset.mem_union_right _ ha)
    obtain ⟨e, he⟩ := OrderedMaps.lookup_of_mem (mem_hashes.mp hmem)
    obtain ⟨links, hlinks⟩ := OrderedMaps.lookup_of_mem ((hp.linked a).mpr (mem_hashes.mp hmem))
    have hparents : p.getMemPoolParents a = some (p.linkedParents a) := by
      simp [linkedParents, getMemPoolParents, hlinks]
    have hround := hcollects.round ha
    have hseen : insert a w.setAncestors ⊆ p.hashes :=
      Finset.insert_subset hmem fun y hy => hin y (Finset.mem_union_left _ hy)
    -- the size of what is seen, with `a`
    have htotal' : w.totalSizeWithAncestors + e.nTxSize =
        entry.nTxSize + ∑ y ∈ insert a w.setAncestors, p.txSize y := by
      have hsize : p.txSize a = e.nTxSize := by simp [txSize, he]
      rw [Finset.sum_insert (Finset.disjoint_left.mp hcollects.disjoint ha), htotal, hsize]
      omega
    have hsize : entry.nTxSize < 2 ^ 63 := by
      have hle := Finset.single_le_sum (f := p.txSize) (fun _ _ => Nat.zero_le _)
        (mem_hashes.mpr (OrderedMaps.mem_of_lookup hentry))
      have heq : p.txSize it = entry.nTxSize := by simp [txSize, hentry]
      have hsizes := hp.sizes
      omega
    have hnone : ancestorError noLimits entry.nTxSize a e
        (w.totalSizeWithAncestors + e.nTxSize) = none := by
      have hle := Finset.sum_le_sum_of_subset (f := p.txSize) hseen
      have hsizes := hp.sizes
      obtain ⟨hsizeTotal, hcountTotal⟩ := hp.totals a e he
      refine ancestorError_eq_none.mpr ⟨⟨?_, ?_⟩, ?_⟩
      · simp only [noLimits]
        omega
      · simp only [noLimits]
        omega
      · simp only [noLimits, htotal']
        omega
    simp only [he, hparents, hnone]
    cases hstage : stageParents noLimits.limitAncestorCount (insert a w.setAncestors)
        (order.visit (p.linkedParents a)) (w.parentHashes.erase a) with
    | error err =>
      have hlt := stageParents_error hstage
      rw [order.toFinset_visit] at hlt
      have hstaged : w.parentHashes.erase a ∪ (p.linkedParents a \ insert a w.setAncestors) ⊆
          p.hashes := by
        refine Finset.union_subset (fun y hy => ?_) (fun y hy => ?_)
        · exact hin y (Finset.mem_union_right _ (Finset.mem_of_mem_erase hy))
        · exact hp.closed a (Finset.mem_sdiff.mp hy).1
      have hle := Finset.card_le_card hstaged
      have hle' := Finset.card_le_card hseen
      have hcard := hp.card
      simp only [noLimits] at hlt
      omega
    | ok stage' =>
      obtain ⟨rfl, -⟩ := stageParents_ok hstage
      refine .inr ⟨_, rfl, ⟨?_, htotal'⟩, ?_⟩
      · rw [order.toFinset_visit]
        exact hround
      · exact hcollects.card_sdiff_lt ha fun y hy => hin y (Finset.mem_union_right _ hy)

theorem calculateMemPoolAncestors_links (hp : p.Walkable) {entry : CTxMemPoolEntry}
    (hentry : p.mapTx.lookup it = some entry) (hhash : entry.tx.hash = it)
    (hS : ∀ x, x ∈ S ↔ ∃ a ∈ p.linkedParents it, Worklists.Reach p.linkedParents a x)
    {r : Option AncestorResult} :
    p.CalculateMemPoolAncestors order entry noLimits false r ↔ r = some ⟨S, none⟩ := by
  subst hhash
  obtain ⟨links, hlinks⟩ :=
    OrderedMaps.lookup_of_mem ((hp.linked _).mpr (OrderedMaps.mem_of_lookup hentry))
  have hstart : p.startParents noLimits entry false = some (.ok (p.linkedParents entry.tx.hash)) := by
    simp [startParents, linkedParents, getMemPoolParents, hlinks]
  rw [CalculateMemPoolAncestors, hstart]
  refine Loops.ends_iff (I := p.Ascending entry (p.linkedParents entry.tx.hash))
    (fun w => (p.hashes \ w.setAncestors).card) ?_ ?_ ⟨Worklists.Collects.start _ _, by simp⟩
  · intro w w' hw hpass
    rcases ancestorPass_noLimits hp hentry hw order with ⟨-, heq⟩ | ⟨w₁, heq, hw₁, hlt⟩
    · simp [heq] at hpass
    · obtain rfl := Sum.inl.inj (heq.symm.trans hpass)
      exact ⟨hw₁, hlt⟩
  · intro w r hw hpass
    rcases ancestorPass_noLimits hp hentry hw order with ⟨hempty, heq⟩ | ⟨w₁, heq, -, -⟩
    · obtain rfl := Sum.inr.inj (heq.symm.trans hpass)
      have hcollects := hw.1
      rw [hempty] at hcollects
      have hset : w.setAncestors = S := by
        ext x
        rw [hcollects.mem_iff, hS]
      rw [hset]
    · simp [heq] at hpass

/-! ### The entries leave their ancestors -/

variable (pool) in
/-- A consistent pool whose transactions do not depend on themselves. -/
structure Sound : Prop where
  consistent : pool.Consistent
  acyclic : ∀ x, ¬ Relation.TransGen pool.Spends x x
  small : pool.totalTxSize < 2 ^ 63

open Classical in
variable (pool) in
/-- What depends on a transaction, of a set that has left. -/
noncomputable def below (gone : Finset UInt256) (x : UInt256) : Finset UInt256 :=
  gone.filter (Relation.TransGen pool.Spends x)

variable (pool) in
/-- An entry without what depends on it, of a set that has left. -/
noncomputable def lessened (gone : Finset UInt256) (x : UInt256) (e : CTxMemPoolEntry) :
    CTxMemPoolEntry :=
  e.withDescendant (-∑ d ∈ pool.below gone x, (pool.txSize d : ℤ))
    (-∑ d ∈ pool.below gone x, pool.txFee d) (-(pool.below gone x).card)

theorem mem_below {d : UInt256} :
    d ∈ pool.below gone x ↔ d ∈ gone ∧ Relation.TransGen pool.Spends x d := by
  simp [below]

theorem mem_of_trans {d : UInt256} (h : Relation.TransGen pool.Spends x d) :
    x ∈ pool.mapTx ∧ d ∈ pool.mapTx := by
  obtain ⟨_, -, hlast⟩ := Relation.TransGen.tail'_iff.mp h
  exact ⟨mem_of_reach_left h.to_reflTransGen hlast.mem_right, hlast.mem_right⟩

theorem lessened_totals (gone : Finset UInt256) (hs : pool.Sound) (he : pool.mapTx.lookup x = some e) :
    (pool.lessened gone x e).nCountWithDescendants =
        (pool.descendants x \ pool.below gone x).card ∧
      (pool.lessened gone x e).nSizeWithDescendants =
        ∑ d ∈ pool.descendants x \ pool.below gone x, (pool.txSize d : ℤ) ∧
      (pool.lessened gone x e).nModFeesWithDescendants =
        ∑ d ∈ pool.descendants x \ pool.below gone x, pool.txFee d := by
  have hsub : pool.below gone x ⊆ pool.descendants x := by
    intro d hd
    have htrans := (mem_below.mp hd).2
    exact mem_descendants.mpr ⟨(mem_of_trans htrans).2, htrans.to_reflTransGen⟩
  have hcard := Finset.card_sdiff_add_card_eq_card hsub
  have hsizes := Finset.sum_sdiff hsub (f := fun d => (pool.txSize d : ℤ))
  have hfees := Finset.sum_sdiff hsub (f := pool.txFee)
  simp only [lessened, CTxMemPoolEntry.withDescendant, hs.consistent.count x e he,
    hs.consistent.size x e he, hs.consistent.fees x e he]
  omega

theorem mem_descendants_sdiff (gone : Finset UInt256) (hs : pool.Sound) (hx : x ∈ pool.mapTx) :
    x ∈ pool.descendants x \ pool.below gone x :=
  Finset.mem_sdiff.mpr ⟨mem_descendants.mpr ⟨hx, .refl⟩,
    fun hbelow => hs.acyclic x (mem_below.mp hbelow).2⟩

theorem txSize_pos (hs : pool.Sound) (hx : x ∈ pool.mapTx) : 0 < pool.txSize x := by
  obtain ⟨e, he⟩ := OrderedMaps.lookup_of_mem hx
  rw [txSize, he, Option.map_some, Option.getD_some, hs.consistent.sized x e he]
  unfold CTransaction.getSerializeSize
  omega

theorem lessened_pos (gone : Finset UInt256) (hs : pool.Sound) (he : pool.mapTx.lookup x = some e) :
    0 < (pool.lessened gone x e).nCountWithDescendants ∧
      0 < (pool.lessened gone x e).nSizeWithDescendants := by
  obtain ⟨hcount, hsize, -⟩ := lessened_totals gone hs he
  have hx : x ∈ pool.mapTx := OrderedMaps.mem_of_lookup he
  have hself := mem_descendants_sdiff gone hs hx
  have hle := Finset.single_le_sum (f := fun d => (pool.txSize d : ℤ))
    (fun d _ => Int.natCast_nonneg _) hself
  have hpos := txSize_pos hs hx
  rw [hcount, hsize]
  exact ⟨Int.natCast_pos.mpr (Finset.card_pos.mpr ⟨x, hself⟩), by omega⟩

theorem lessened_insert (hnew : it ∉ gone) : pool.lessened (insert it gone) x e =
    open Classical in if Relation.TransGen pool.Spends x it then
      (pool.lessened gone x e).withDescendant (-pool.txSize it) (-pool.txFee it) (-1)
    else pool.lessened gone x e := by
  classical
  unfold lessened below
  rw [Finset.filter_insert]
  split_ifs
  · have hout : it ∉ gone.filter (Relation.TransGen pool.Spends x) := fun h =>
      hnew (Finset.mem_filter.mp h).1
    rw [Finset.sum_insert hout, Finset.sum_insert hout, Finset.card_insert_of_notMem hout]
    simp only [CTxMemPoolEntry.withDescendant, CTxMemPoolEntry.mk.injEq, true_and]
    push_cast
    omega
  · rfl

/-- The pool after those of `gone` have left their ancestors. -/
structure Left (pool : CTxMemPool) (gone : Finset UInt256) (p : CTxMemPool) : Prop where
  mapTx : ∀ x, p.mapTx.lookup x = (pool.mapTx.lookup x).map (pool.lessened gone x)
  mapLinks : ∀ x, p.mapLinks.lookup x = (pool.mapLinks.lookup x).map fun links =>
    ⟨links.parents, links.children \ gone⟩
  rest : p = { pool with mapTx := p.mapTx, mapLinks := p.mapLinks }

namespace Left

theorem mem_iff (hl : Left pool gone p) : x ∈ p.mapTx ↔ x ∈ pool.mapTx := by
  rw [← AList.lookup_isSome, hl.mapTx, Option.isSome_map, AList.lookup_isSome]

theorem linkedParents_eq (hl : Left pool gone p) : p.linkedParents = pool.linkedParents := by
  funext x
  simp [linkedParents, getMemPoolParents, hl.mapLinks x, Function.comp_def]

theorem walkable (hs : pool.Sound) (hl : Left pool gone p) : p.Walkable := by
  have hhashes : p.hashes = pool.hashes := by
    ext x
    simp [hl.mem_iff]
  have hsize : p.txSize = pool.txSize := by
    funext x
    simp only [txSize, hl.mapTx x, Option.map_map]
    rfl
  have hsmall := hs.small
  rw [hs.consistent.total] at hsmall
  have hcard : pool.hashes.card ≤ ∑ x ∈ pool.hashes, pool.txSize x := by
    rw [Finset.card_eq_sum_ones]
    exact Finset.sum_le_sum fun x hx => txSize_pos hs (mem_hashes.mp hx)
  refine ⟨fun x => ?_, fun x a ha => ?_, ?_, ?_, fun x e he => ?_⟩
  · rw [← AList.lookup_isSome, hl.mapLinks, Option.isSome_map, AList.lookup_isSome, hl.mem_iff,
      hs.consistent.linked]
  · rw [hl.linkedParents_eq, mem_linkedParents hs.consistent] at ha
    exact hhashes ▸ mem_hashes.mpr ha.1
  · rw [hhashes]
    omega
  · rw [hhashes, hsize]
    exact hsmall
  · rw [hl.mapTx, Option.map_eq_some_iff] at he
    obtain ⟨e₀, he₀, rfl⟩ := he
    obtain ⟨hcount, hsizes, -⟩ := lessened_totals gone hs he₀
    have hsub : pool.descendants x \ pool.below gone x ⊆ pool.hashes := fun d hd =>
      mem_hashes.mpr (mem_descendants.mp (Finset.mem_sdiff.mp hd).1).1
    have hle := Finset.card_le_card hsub
    have hle' := Finset.sum_le_sum_of_subset (f := pool.txSize) hsub
    rw [hcount, hsizes, ← Nat.cast_sum]
    omega

theorem leave (hs : pool.Sound) (hl : Left pool gone p) (hit : it ∈ pool.mapTx)
    (hnew : it ∉ gone) (order : EntryOrder) :
    ∃ p', Left pool (insert it gone) p' ∧ ∀ q, LeaveAncestors order it p q ↔ q = p' := by
  obtain ⟨e, he⟩ := OrderedMaps.lookup_of_mem hit
  have he' : p.mapTx.lookup it = some (pool.lessened gone it e) := by rw [hl.mapTx, he]; rfl
  have hancestors : ∀ x, x ∈ pool.ancestors it ↔
      ∃ a ∈ p.linkedParents it, Worklists.Reach p.linkedParents a x := by
    intro x
    simp only [hl.linkedParents_eq, mem_linkedParents hs.consistent,
      reach_linkedParents hs.consistent, mem_ancestors]
    rw [and_iff_right_of_imp fun h => (mem_of_trans h).1, Relation.TransGen.tail'_iff]
    exact exists_congr fun _ => and_comm
  have hcalc : ∀ r, p.CalculateMemPoolAncestors order (pool.lessened gone it e) noLimits false r ↔
      r = some ⟨pool.ancestors it, none⟩ := fun r =>
    calculateMemPoolAncestors_links (hl.walkable hs) he' (hs.consistent.keyed it e he) hancestors
  have hsize : pool.txSize it = (pool.lessened gone it e).nTxSize := by simp [txSize, he]; rfl
  have hfee : pool.txFee it = (pool.lessened gone it e).getModifiedFee := by simp [txFee, he]; rfl
  -- no assertion of `UpdateState` fails
  have hmodify : ∀ a ∈ order.visit (pool.ancestors it), ∃ e', p.mapTx.lookup a = some e' ∧
      e'.updateState (-1 * pool.txSize it) (-1 * pool.txFee it) (-1) =
        some (e'.withDescendant (-pool.txSize it) (-pool.txFee it) (-1)) := by
    intro a ha
    obtain ⟨hmem, htrans⟩ := mem_ancestors.mp ((order.mem_visit _ a).mp ha)
    obtain ⟨e', he'⟩ := OrderedMaps.lookup_of_mem hmem
    refine ⟨pool.lessened gone a e', by rw [hl.mapTx, he']; rfl, ?_⟩
    have hpos := lessened_pos gone hs he'
    have hpos' := lessened_pos (insert it gone) hs he'
    rw [lessened_insert hnew, if_pos htrans] at hpos'
    rw [neg_one_mul, neg_one_mul, CTxMemPoolEntry.updateState, if_neg, if_pos hpos'.symm]
    simp [CTxMemPoolEntry.isDirty, hpos.1.ne']
  obtain ⟨mapTx, hfold, hlookup⟩ := OrderedMaps.foldlM_modify (order.nodup _) hmodify
  obtain ⟨links, hlinks⟩ := OrderedMaps.lookup_of_mem ((hs.consistent.linked it).mpr hit)
  have hparents : p.getMemPoolParents it = some links.parents := by
    simp [getMemPoolParents, hl.mapLinks, hlinks]
  let p' : CTxMemPool := { p with
    mapLinks := (order.visit links.parents).foldl (fun m piter => m.updateChild piter it false)
      p.mapLinks
    mapTx := mapTx }
  have hupdate : p.updateAncestorsOf order false it (pool.ancestors it) = some p' := by
    rw [hsize, hfee] at hfold
    unfold updateAncestorsOf
    rw [hparents, he']
    simp only [Option.bind_eq_bind, Option.bind_some, Bool.false_eq_true, if_false]
    rw [hfold]
    rfl
  refine ⟨p', ⟨fun x => (hlookup x).trans ?_, fun x => ?_, ?_⟩, fun q => ⟨?_, ?_⟩⟩
  · simp only [EntryOrder.mem_visit, hl.mapTx x]
    cases hx : pool.mapTx.lookup x with
    | none => simp
    | some e₀ =>
      have hmem : x ∈ pool.mapTx := OrderedMaps.mem_of_lookup hx
      by_cases htrans : Relation.TransGen pool.Spends x it
      · simp [mem_ancestors, hmem, htrans, lessened_insert hnew]
      · simp [mem_ancestors, htrans, lessened_insert hnew]
  · -- the parents have one child less
    have hparent := hs.consistent.parents it links hlinks x
    refine (OrderedMaps.lookup_foldl_insert (fun _ o => TxLinks.mk (o.getD ⟨∅, ∅⟩).parents
      ((o.getD ⟨∅, ∅⟩).children.erase it)) (order.nodup links.parents) p.mapLinks x).trans ?_
    simp only [EntryOrder.mem_visit, hl.mapLinks x]
    cases hx : pool.mapLinks.lookup x with
    | none =>
      have hout : x ∉ links.parents := fun hmem =>
        AList.lookup_eq_none.mp hx ((hs.consistent.linked x).mpr (hparent.mp hmem).1)
      simp [hout]
    | some links' =>
      have hchild := (hs.consistent.children x links' hx it).trans hparent.symm
      simp only [Option.map_some, Option.getD_some, Finset.sdiff_insert]
      split_ifs with hmem
      · rfl
      · rw [Finset.erase_eq_of_notMem]
        exact fun h => hmem (hchild.mp (Finset.mem_sdiff.mp h).1)
  · show p' = _
    rw [show p' = { p with mapLinks := p'.mapLinks, mapTx := p'.mapTx } from rfl, hl.rest]
  · rintro ⟨entry, result, hentry, hresult, hq⟩
    obtain rfl := Option.some.inj (he'.symm.trans hentry)
    obtain rfl := Option.some.inj ((hcalc _).mp hresult)
    exact Option.some.inj (hq.symm.trans hupdate)
  · rintro rfl
    exact ⟨_, _, he', (hcalc _).mpr rfl, hupdate⟩

end Left
/-! ### The entries are removed -/

/-- The pool after those of `gone` have been removed, of the set `S` that leaves. -/
structure Removed (pool : CTxMemPool) (S gone : Finset UInt256) (p : CTxMemPool) : Prop where
  mapTx : ∀ x, p.mapTx.lookup x =
    if x ∈ gone then none else (pool.mapTx.lookup x).map (pool.lessened S x)
  mapLinks : ∀ x, p.mapLinks.lookup x =
    if x ∈ gone then none else (pool.mapLinks.lookup x).map fun links =>
      ⟨if x ∈ S then links.parents else links.parents \ S, links.children \ S⟩
  nextTx : ∀ o point, p.mapNextTx.lookup o = some point ↔ pool.mapNextTx.lookup o = some point ∧
    ∀ d ∈ gone, ∀ tx, pool.txOf d = some tx → o ∉ tx.vin.map CTxIn.prevout
  inPool : gone ⊆ pool.hashes
  total : p.totalTxSize + ∑ d ∈ gone, pool.txSize d = pool.totalTxSize

theorem Left.removed (hs : pool.Sound) (hl : Left pool S p) (order : EntryOrder)
    (hS : S ⊆ pool.hashes) : ∃ q, Removed pool S ∅ q ∧
      ∀ q', Loops.Each (fun removeIt p p' => p.updateChildrenForRemoval order removeIt = some p')
        (order.visit S) p q' ↔ q' = q := by
  -- the children of those that have been visited have them no longer as parents
  obtain ⟨q, ⟨hrest, hlinks⟩, hiff⟩ := Loops.each_iff (P := (· ∈ pool.mapTx)) (s := p)
    (I := fun done q => q = { p with mapLinks := q.mapLinks } ∧
      ∀ x, q.mapLinks.lookup x = (pool.mapLinks.lookup x).map fun links =>
        ⟨if x ∈ S then links.parents else links.parents \ done, links.children \ S⟩)
    (R := fun removeIt p p' => p.updateChildrenForRemoval order removeIt = some p')
    (fun it done q hit _ ⟨hrest, hlinks⟩ => by
      obtain ⟨l, hl'⟩ := OrderedMaps.lookup_of_mem ((hs.consistent.linked it).mpr hit)
      have hchildren : q.getMemPoolChildren it = some (l.children \ S) := by
        simp [getMemPoolChildren, hlinks, hl']
      let q' : CTxMemPool := { q with
        mapLinks := (order.visit (l.children \ S)).foldl
          (fun m updateIt => m.updateParent updateIt it false) q.mapLinks }
      refine ⟨q', ⟨?_, fun x => ?_⟩, fun t => ?_⟩
      · rw [show q' = { q with mapLinks := q'.mapLinks } from rfl, hrest]
      · refine (OrderedMaps.lookup_foldl_insert (fun _ o => TxLinks.mk
          ((o.getD ⟨∅, ∅⟩).parents.erase it) (o.getD ⟨∅, ∅⟩).children)
          (order.nodup _) q.mapLinks x).trans ?_
        have hchild := hs.consistent.children it l hl' x
        simp only [EntryOrder.mem_visit, Finset.mem_sdiff, hlinks x]
        cases hx : pool.mapLinks.lookup x with
        | none =>
          have hout : x ∉ l.children := fun hmem => AList.lookup_eq_none.mp hx
            ((hs.consistent.linked x).mpr (hchild.mp hmem).mem_right)
          simp [hout]
        | some l' =>
          have hparent := (hs.consistent.parents x l' hx it).trans hchild.symm
          simp only [Option.map_some, Option.getD_some, Finset.sdiff_insert]
          by_cases hxS : x ∈ S
          · simp [hxS]
          · by_cases hmem : x ∈ l.children
            · simp [hxS, hmem]
            · have hout : it ∉ l'.parents \ done := fun h =>
                hmem (hparent.mp (Finset.mem_sdiff.mp h).1)
              simp [hxS, hmem, Finset.erase_eq_of_notMem hout]
      · rw [updateChildrenForRemoval, hchildren, Option.map_some, Option.some.injEq, eq_comm])
    (order.nodup S)
    (fun a ha => ⟨mem_hashes.mp (hS ((order.mem_visit S a).mp ha)), Finset.notMem_empty a⟩)
    ⟨rfl, fun x => by simp [hl.mapLinks]⟩
  rw [order.toFinset_visit, Finset.empty_union] at hlinks
  refine ⟨q, ⟨fun x => ?_, fun x => ?_, fun o point => ?_, Finset.empty_subset _, ?_⟩, hiff⟩
  · rw [hrest]
    exact hl.mapTx x
  · exact hlinks x
  · rw [hrest, hl.rest]
    simp
  · rw [hrest, hl.rest, Finset.sum_empty]
    rfl

variable (pool) in
/-- What depends on a transaction of the set and is entered from outside is in the set. -/
def Traps (S : Finset UInt256) : Prop := ∀ a b d, pool.Spends a b → a ∉ S → b ∈ S →
  Relation.ReflTransGen pool.Spends b d → d ∈ S

namespace Removed

variable {q : CTxMemPool}

theorem txOf_eq (hr : Removed pool S gone q) (x : UInt256) :
    q.txOf x = if x ∈ gone then none else pool.txOf x := by
  simp only [txOf, hr.mapTx]
  split_ifs
  · rfl
  · rw [Option.map_map]
    rfl

theorem txSize_eq (hr : Removed pool S gone q) (hx : x ∉ gone) :
    q.txSize x = pool.txSize x ∧ q.txFee x = pool.txFee x := by
  simp only [txSize, txFee, hr.mapTx, if_neg hx, Option.map_map]
  exact ⟨rfl, rfl⟩

theorem mem_iff (hr : Removed pool S gone q) : x ∈ q.mapTx ↔ x ∈ pool.mapTx ∧ x ∉ gone := by
  rw [← AList.lookup_isSome, hr.mapTx, ← AList.lookup_isSome]
  split_ifs with hx <;> simp [hx]

theorem removeUnchecked (hs : pool.Sound) {q : IndexedPool} (hr : Removed pool S gone q.toCTxMemPool)
    (hit : it ∈ pool.mapTx) (hnew : it ∉ gone) :
    ∃ q', q.removeUnchecked it = some q' ∧ Removed pool S (insert it gone) q'.toCTxMemPool := by
  obtain ⟨e, he⟩ := OrderedMaps.lookup_of_mem hit
  have he' : q.mapTx.lookup it = some (pool.lessened S it e) := by
    rw [hr.mapTx, if_neg hnew, he]
    rfl
  have herase : ∀ {β : Type} (m : AList fun _ : UInt256 => β) (o : Option β) (x : UInt256),
      m.lookup x = (if x ∈ gone then none else o) →
        (m.erase it).lookup x = if x ∈ insert it gone then none else o := by
    intro β m o x hm
    by_cases hx : x = it
    · subst hx
      simp
    · simp [AList.lookup_erase_ne hx, hm, hx]
  have hsizes : ∑ d ∈ insert it gone, pool.txSize d ≤ pool.totalTxSize := by
    rw [hs.consistent.total]
    exact Finset.sum_le_sum_of_subset (Finset.insert_subset (mem_hashes.mpr hit) hr.inPool)
  have htx : pool.txOf it = some e.tx := by rw [txOf, he]; rfl
  refine ⟨_, by rw [IndexedPool.removeUnchecked, he']; rfl, fun x => herase _ _ x (hr.mapTx x),
    fun x => herase _ _ x (hr.mapLinks x), fun o point => ?_,
    Finset.insert_subset (mem_hashes.mpr hit) hr.inPool, ?_⟩
  · show AList.lookup o ((e.tx.vin.map CTxIn.prevout).foldl _ q.mapNextTx) = _ ↔ _
    rw [MapMerge.lookup_foldl_erase]
    simp only [Finset.forall_mem_insert, htx, Option.some.injEq, forall_eq']
    split_ifs with ho
    · simp [ho]
    · simp [ho, hr.nextTx]
  · have hsize : pool.txSize it = e.nTxSize := by rw [txSize, he]; rfl
    have htotal := hr.total
    have hsmall := hs.small
    rw [Finset.sum_insert hnew, hsize] at hsizes ⊢
    show (q.totalTxSize + 2 ^ 64 - e.nTxSize) % 2 ^ 64 + _ = _
    omega

theorem spends_iff (hr : Removed pool S S q) {a b : UInt256} :
    q.Spends a b ↔ pool.Spends a b ∧ a ∉ S ∧ b ∉ S := by
  simp only [Spends, hr.mem_iff, hr.txOf_eq]
  by_cases hb : b ∈ S
  · simp [hb]
  · simp only [hb, not_false_eq_true, and_true]
    exact and_right_comm

theorem descendants_eq (hr : Removed pool S S q) (htraps : pool.Traps S) (hx : x ∉ S) :
    q.descendants x = pool.descendants x \ pool.below S x := by
  ext d
  rw [Finset.mem_sdiff, mem_descendants, mem_descendants, mem_below, hr.mem_iff]
  constructor
  · rintro ⟨⟨hmem, hd⟩, hreach⟩
    exact ⟨⟨hmem, Relation.ReflTransGen.mono (fun a b hab => (hr.spends_iff.mp hab).1) _ _ hreach⟩,
      fun h => hd h.1⟩
  · rintro ⟨⟨hmem, hreach⟩, hout⟩
    have hd : d ∉ S := by
      intro hd
      rcases Relation.reflTransGen_iff_eq_or_transGen.mp hreach with rfl | htrans
      · exact hx hd
      · exact hout ⟨hd, htrans⟩
    refine ⟨⟨hmem, hd⟩, ?_⟩
    -- a path that enters the set does not leave it
    induction hreach using Relation.ReflTransGen.head_induction_on with
    | refl => exact .refl
    | head hab hrest ih =>
      have hb := fun hb => hd (htraps _ _ d hab hx hb hrest)
      exact .head (hr.spends_iff.mpr ⟨hab, hx, hb⟩) (ih hb fun h => hd h.1)

theorem nextTx_iff (hs : pool.Sound) (hr : Removed pool S S q) (o : COutPoint) (point : CInPoint) :
    q.mapNextTx.lookup o = some point ↔ q.txOf point.ptx.hash = some point.ptx ∧
      (point.ptx.vin[point.n]?).map CTxIn.prevout = some o := by
  rw [hr.nextTx, hs.consistent.nextTx, hr.txOf_eq, and_right_comm]
  refine and_congr_left fun hin => ?_
  have hmem : o ∈ point.ptx.vin.map CTxIn.prevout := by
    obtain ⟨i, hi, rfl⟩ := Option.map_eq_some_iff.mp hin
    exact List.mem_map_of_mem (List.mem_of_getElem? hi)
  constructor
  · rintro ⟨htx, hout⟩
    rw [if_neg fun hS => hout _ hS _ htx hmem]
    exact htx
  · intro htx
    split_ifs at htx with hS
    refine ⟨htx, fun d hd tx hdtx ho => hS ?_⟩
    -- the output has one spender
    obtain ⟨i, hi, hprev⟩ := List.mem_map.mp ho
    obtain ⟨j, hj⟩ := List.getElem?_of_mem hi
    obtain ⟨e, he, rfl⟩ := txOf_eq_some.mp hdtx
    have hhash := hs.consistent.keyed d e he
    have hspent := (hs.consistent.nextTx o ⟨e.tx, j⟩).mpr ⟨by rw [hhash]; exact hdtx, by simp [hj, hprev]⟩
    have hsame := (hs.consistent.nextTx o point).mpr ⟨htx, hin⟩
    rw [Option.some.inj (hsame.symm.trans hspent), hhash]
    exact hd

theorem sound (hs : pool.Sound) (hr : Removed pool S S q) (htraps : pool.Traps S) : q.Sound := by
  have hc := hs.consistent
  have hold : ∀ x e, q.mapTx.lookup x = some e →
      x ∉ S ∧ ∃ e₀, pool.mapTx.lookup x = some e₀ ∧ e = pool.lessened S x e₀ := by
    intro x e he
    rw [hr.mapTx] at he
    split_ifs at he with hx
    obtain ⟨e₀, he₀, rfl⟩ := Option.map_eq_some_iff.mp he
    exact ⟨hx, e₀, he₀, rfl⟩
  have holdLinks : ∀ x links, q.mapLinks.lookup x = some links → x ∉ S ∧
      ∃ links₀, pool.mapLinks.lookup x = some links₀ ∧
        links = ⟨links₀.parents \ S, links₀.children \ S⟩ := by
    intro x links hlinks
    rw [hr.mapLinks] at hlinks
    split_ifs at hlinks with hx
    obtain ⟨links₀, hlinks₀, rfl⟩ := Option.map_eq_some_iff.mp hlinks
    exact ⟨hx, links₀, hlinks₀, rfl⟩
  have htotals : ∀ x e, q.mapTx.lookup x = some e →
      e.nCountWithDescendants = (q.descendants x).card ∧
        e.nSizeWithDescendants = ∑ d ∈ q.descendants x, (q.txSize d : ℤ) ∧
        e.nModFeesWithDescendants = ∑ d ∈ q.descendants x, q.txFee d := by
    intro x e he
    obtain ⟨hx, e₀, he₀, rfl⟩ := hold x e he
    have hsame : ∀ d ∈ q.descendants x, q.txSize d = pool.txSize d ∧ q.txFee d = pool.txFee d :=
      fun d hd => hr.txSize_eq (hr.mem_iff.mp (mem_descendants.mp hd).1).2
    rw [Finset.sum_congr rfl fun d hd => congrArg Nat.cast (hsame d hd).1,
      Finset.sum_congr rfl fun d hd => (hsame d hd).2, hr.descendants_eq htraps hx]
    exact lessened_totals S hs he₀
  have hhashes : q.hashes = pool.hashes \ S := by
    ext x
    simp [hr.mem_iff]
  have htotal : q.totalTxSize = ∑ x ∈ q.hashes, q.txSize x := by
    have hsum := Finset.sum_sdiff hr.inPool (f := pool.txSize)
    have htotal := hr.total
    rw [hc.total] at htotal
    have hsame : ∑ x ∈ pool.hashes \ S, q.txSize x = ∑ x ∈ pool.hashes \ S, pool.txSize x :=
      Finset.sum_congr rfl fun x hx => (hr.txSize_eq (Finset.mem_sdiff.mp hx).2).1
    rw [hhashes, hsame]
    omega
  refine ⟨⟨fun x e he => ?_, fun x e he => ?_, fun x => ?_, fun x links hlinks p => ?_,
    fun x links hlinks c => ?_, hr.nextTx_iff hs, fun x e he => (htotals x e he).1,
    fun x e he => (htotals x e he).2.1, fun x e he => (htotals x e he).2.2, htotal⟩,
    fun x hx => ?_, ?_⟩
  · obtain ⟨-, e₀, he₀, rfl⟩ := hold x e he
    exact hc.keyed x e₀ he₀
  · obtain ⟨-, e₀, he₀, rfl⟩ := hold x e he
    exact hc.sized x e₀ he₀
  · rw [hr.mem_iff, ← hc.linked, ← AList.lookup_isSome, hr.mapLinks, ← AList.lookup_isSome]
    split_ifs with hx <;> simp [hx]
  · obtain ⟨hx, links₀, hlinks₀, rfl⟩ := holdLinks x links hlinks
    rw [Finset.mem_sdiff, hc.parents x links₀ hlinks₀, hr.spends_iff]
    simp [hx]
  · obtain ⟨hx, links₀, hlinks₀, rfl⟩ := holdLinks x links hlinks
    rw [Finset.mem_sdiff, hc.children x links₀ hlinks₀, hr.spends_iff]
    simp [hx]
  · exact hs.acyclic x (Relation.TransGen.mono (fun a b hab => (hr.spends_iff.mp hab).1) x x hx)
  · have hsmall := hs.small
    have htotal := hr.total
    omega

end Removed

end CTxMemPool

namespace IndexedPool

open CTxMemPool

variable {order : EntryOrder} {pool : IndexedPool} {S : Finset UInt256}

/-- **The removal of a set has one outcome**: no assertion fails, and what is left is sound. -/
theorem removeStaged_iff (hs : pool.Sound) (order : EntryOrder) (hS : S ⊆ pool.hashes)
    (htraps : pool.Traps S) : ∃ pool', (∀ q, RemoveStaged order S pool q ↔ q = pool') ∧
      pool'.Sound ∧ ∀ x, pool'.txOf x = if x ∈ S then none else pool.txOf x := by
  have hin : ∀ a ∈ order.visit S, a ∈ pool.mapTx ∧ a ∉ (∅ : Finset UInt256) := fun a ha =>
    ⟨mem_hashes.mp (hS ((order.mem_visit S a).mp ha)), Finset.notMem_empty a⟩
  have hstart : Left pool.toCTxMemPool ∅ pool.toCTxMemPool := by
    refine ⟨fun x => ?_, fun x => ?_, rfl⟩
    · have hid : pool.lessened ∅ x = id := by
        funext e
        simp [lessened, below, CTxMemPoolEntry.withDescendant]
      simp [hid]
    · simp
  obtain ⟨p, hp, hfirst⟩ := Loops.each_iff (P := (· ∈ pool.mapTx))
    (I := fun gone p => Left pool.toCTxMemPool gone p)
    (fun it gone p hit hnew hl => hl.leave hs hit hnew order) (order.nodup S) hin hstart
  rw [order.toFinset_visit, Finset.empty_union] at hp
  obtain ⟨core, hcore, hsecond⟩ := hp.removed hs order hS
  obtain ⟨pool', hr, hthird⟩ := Loops.each_iff (P := (· ∈ pool.mapTx))
    (I := fun gone q => Removed pool.toCTxMemPool S gone q.toCTxMemPool)
    (R := fun it p p' => p.removeUnchecked it = some p')
    (s := { pool with toCTxMemPool := core })
    (fun it gone q hit hnew hr => by
      obtain ⟨q', heq, hr'⟩ := hr.removeUnchecked hs hit hnew
      exact ⟨q', hr', fun t => by rw [heq, Option.some.injEq, eq_comm]⟩) (order.nodup S) hin hcore
  rw [order.toFinset_visit, Finset.empty_union] at hr
  refine ⟨pool', fun q => ?_, hr.sound hs htraps, hr.txOf_eq⟩
  simp only [RemoveStaged, UpdateForRemoveFromMempool, hfirst, exists_eq_left, hsecond, hthird]

end IndexedPool
end Stonecoin
