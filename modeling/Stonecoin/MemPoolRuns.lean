/-
The memory pool over whole runs of additions and of all the routes by which transactions leave it.

  * `Orderly`: what the callers see to;
  * `sound_of_reached`: the links, the inputs and the totals stay right, in every run;
  * `expire_iff`: what `Expire` leaves of a pool that is reached.
-/
import Stonecoin.StagedRemoval

namespace Stonecoin
namespace CTxMemPool

variable {order : EntryOrder} {pool pool' : CTxMemPool} {entries : Finset UInt256}
  {tx : CTransaction} {nFee : ℤ} {x : UInt256}

theorem Sound.of_eq (hs : pool.Sound) (hmapTx : pool'.mapTx = pool.mapTx)
    (hmapLinks : pool'.mapLinks = pool.mapLinks) (hmapNextTx : pool'.mapNextTx = pool.mapNextTx)
    (htotal : pool'.totalTxSize = pool.totalTxSize) : pool'.Sound := by
  obtain ⟨⟨hkeyed, hsized, hlinked, hparents, hchildren, hnextTx, hcount, hsize, hfees, hsum⟩,
    hacyclic, hsmall⟩ := hs
  cases pool'
  cases pool
  subst hmapTx hmapLinks hmapNextTx htotal
  exact ⟨⟨hkeyed, hsized, hlinked, hparents, hchildren, hnextTx, hcount, hsize, hfees, hsum⟩,
    hacyclic, hsmall⟩

theorem sound_empty : empty.Sound where
  consistent := consistent_empty
  acyclic x hx := by
    obtain ⟨_, hfirst, -⟩ := Relation.TransGen.head'_iff.mp hx
    simp [Spends, empty] at hfirst
  small := by decide

theorem Sound.add (hs : pool.Sound) (hnew : pool.IsNew tx)
    (hnodup : (tx.vin.map CTxIn.prevout).Nodup)
    (hunspent : ∀ i ∈ tx.vin, i.prevout ∉ pool.mapNextTx)
    (hsmall : pool.totalTxSize + tx.getSerializeSize < 2 ^ 63)
    (h : pool.addUnchecked order tx.hash (.of tx nFee) (pool.ancestorsOf tx) = some pool') :
    pool'.Sound := by
  obtain ⟨pool₁, heq, hadd, hc⟩ := hs.consistent.addUnchecked order nFee hnew hnodup hunspent
  obtain rfl := Option.some.inj (heq.symm.trans h)
  have hspends : ∀ {p c : UInt256}, pool₁.Spends p c → p ∈ pool.mapTx ∧
      (c = tx.hash ∨ pool.Spends p c) := by
    intro p c hspends
    rcases (hadd.spends_iff hnew).mp hspends with hold | ⟨hc, hp⟩
    · exact ⟨hold.1, .inr hold⟩
    · exact ⟨(mem_parentsIn.mp hp).2, .inl hc⟩
  -- a path ends with the new transaction, or it is an old one
  have htrans : ∀ {p c : UInt256}, Relation.TransGen pool₁.Spends p c →
      c = tx.hash ∨ Relation.TransGen pool.Spends p c := by
    intro p c hpath
    induction hpath with
    | single hpc => exact (hspends hpc).2.imp id .single
    | tail _ hbc ih =>
      obtain ⟨hb, hc | hold⟩ := hspends hbc
      · exact .inl hc
      · exact .inr ((ih.resolve_left fun heq => hnew.absent (heq ▸ hb)).tail hold)
  refine ⟨hc, fun x hx => ?_, ?_⟩
  · rcases htrans hx with rfl | hold
    · obtain ⟨_, hfirst, -⟩ := Relation.TransGen.head'_iff.mp hx
      exact hnew.absent (hspends hfirst).1
    · exact hs.acyclic x hold
  · rw [hadd.size]
    exact hsmall

theorem mem_biUnion_of_reach {b d : UInt256} (hb : b ∈ entries.biUnion pool.descendants)
    (hreach : Relation.ReflTransGen pool.Spends b d) : d ∈ entries.biUnion pool.descendants := by
  obtain ⟨root, hroot, hdesc⟩ := Finset.mem_biUnion.mp hb
  obtain ⟨hmem, hpath⟩ := mem_descendants.mp hdesc
  exact Finset.mem_biUnion.mpr
    ⟨root, hroot, mem_descendants.mpr ⟨mem_of_reach_right hreach hmem, hpath.trans hreach⟩⟩

theorem traps_biUnion : pool.Traps (entries.biUnion pool.descendants) :=
  fun _ _ _ _ _ hb hreach => mem_biUnion_of_reach hb hreach

theorem biUnion_subset : entries.biUnion pool.descendants ⊆ pool.hashes := by
  intro d hd
  obtain ⟨_, -, hdesc⟩ := Finset.mem_biUnion.mp hd
  exact mem_hashes.mpr (mem_descendants.mp hdesc).1

theorem mem_of_calculateDescendants (hc : pool.Consistent) {s : Finset UInt256}
    (h : pool.CalculateDescendants order x ∅ (some s)) : x ∈ pool.mapTx := by
  by_contra hout
  have hchildren : pool.getMemPoolChildren x = none := by
    rw [getMemPoolChildren, AList.lookup_eq_none.mpr fun hmem => hout ((hc.linked x).mp hmem)]
    rfl
  have hstop : pool.descendantPass order ⟨∅, {x}⟩ = .inr none := by
    unfold descendantPass
    cases hfirst : order.first {x} with
    | none => exact absurd (EntryOrder.eq_empty_of_first hfirst) (Finset.singleton_ne_empty x)
    | some it =>
      obtain rfl := Finset.mem_singleton.mp (EntryOrder.mem_of_first hfirst)
      simp [hchildren]
  exact absurd (h.unique (.stop hstop)) (by simp)

theorem spendersOf_subset {origTx : CTransaction} {s : Finset UInt256}
    (h : pool.spendersOf origTx = some s) : s ⊆ pool.hashes := by
  refine Loops.foldlM_keep (I := (· ⊆ pool.hashes)) (fun s i s' hstep hs => ?_) h
    (Finset.empty_subset _)
  split at hstep
  · exact Option.some.inj hstep ▸ hs
  · split_ifs at hstep with hmem
    exact Option.some.inj hstep ▸ Finset.insert_subset (mem_hashes.mpr hmem) hs

end CTxMemPool

namespace IndexedPool

open CTxMemPool

variable {order : EntryOrder} {env : TrimEnv} {pool pool' : IndexedPool} {S : Finset UInt256}
  {s s' : Removal} {tx : CTransaction}

theorem toremove_subset {time : ℤ} : pool.toremove time ⊆ pool.hashes := fun _ hx =>
  mem_hashes.mpr (AList.mem_keys.mpr (List.mem_filter.mp (List.mem_toFinset.mp hx)).1)

/-- A sound pool whose transactions were in the pool before. -/
structure SoundPart (pool pool' : IndexedPool) : Prop where
  sound : pool'.Sound
  part : ∀ x tx, pool'.txOf x = some tx → pool.txOf x = some tx

namespace SoundPart

theorem refl (hs : pool.Sound) : SoundPart pool pool := ⟨hs, fun _ _ h => h⟩

theorem trans {pool₁ : IndexedPool} (h : SoundPart pool pool₁) (h' : SoundPart pool₁ pool') :
    SoundPart pool pool' :=
  ⟨h'.sound, fun x tx hx => h.part x tx (h'.part x tx hx)⟩

theorem mem (h : SoundPart pool pool') {x : UInt256} (hx : x ∈ pool'.mapTx) : x ∈ pool.mapTx := by
  obtain ⟨e, he⟩ := OrderedMaps.lookup_of_mem hx
  exact mem_of_txOf (h.part x e.tx (txOf_eq_some.mpr ⟨e, he, rfl⟩))

theorem txOf_eq (h : SoundPart pool pool') {x : UInt256} (hx : pool.txOf x = some tx)
    (hmem : x ∈ pool'.mapTx) : pool'.txOf x = some tx := by
  obtain ⟨e, he⟩ := OrderedMaps.lookup_of_mem hmem
  have hold := txOf_eq_some.mpr ⟨e, he, rfl⟩
  rw [hold, ← h.part x e.tx hold, hx]

theorem spends (h : SoundPart pool pool') {p c : UInt256} (hspends : pool'.Spends p c) :
    pool.Spends p c := by
  obtain ⟨hp, tx, htx, hin⟩ := hspends
  exact ⟨h.mem hp, tx, h.part c tx htx, hin⟩

theorem clearPrioritisation (h : SoundPart pool pool') (hash : UInt256) :
    SoundPart pool (pool'.clearPrioritisation hash) :=
  ⟨h.sound.of_eq rfl rfl rfl rfl, h.part⟩

theorem removeStaged (hs : pool.Sound) (hS : S ⊆ pool.hashes) (htraps : pool.Traps S)
    (h : RemoveStaged order S pool pool') :
    SoundPart pool pool' ∧ ∀ x ∈ S, x ∉ pool'.mapTx := by
  obtain ⟨q, hiff, hq, htx⟩ := removeStaged_iff hs order hS htraps
  obtain rfl := (hiff pool').mp h
  refine ⟨⟨hq, fun x tx hx => ?_⟩, fun x hx hmem => ?_⟩
  · rw [htx] at hx
    split_ifs at hx
    exact hx
  · obtain ⟨e, he⟩ := OrderedMaps.lookup_of_mem hmem
    have hsome := txOf_eq_some.mpr ⟨e, he, rfl⟩
    simp [htx, hx] at hsome

theorem remove {fRecursive : Bool} (hs : s.pool.Sound)
    (hparents : fRecursive = true ∨ ∀ p, ¬ s.pool.Spends p tx.hash)
    (h : Remove order tx fRecursive s s') : SoundPart s.pool s'.pool ∧
      (fRecursive = false → tx.hash ∉ s'.pool.mapTx) := by
  obtain ⟨S, txs, ⟨roots, hroots, hS⟩, -, -, hstaged⟩ := h
  cases fRecursive with
  | true =>
    have hsub : roots ⊆ s.pool.hashes := by
      simp only [txToRemove, if_true] at hroots
      split_ifs at hroots with hmem
      · exact Option.some.inj hroots ▸ Finset.singleton_subset_iff.mpr (mem_hashes.mpr hmem)
      · exact spendersOf_subset hroots
    obtain rfl := (calculateAllDescendants_iff hs.consistent hsub).mp (by simpa using hS)
    exact ⟨(removeStaged hs biUnion_subset traps_biUnion hstaged).1, by simp⟩
  | false =>
    have hnone : ∀ p, ¬ s.pool.Spends p tx.hash := hparents.resolve_left (by simp)
    obtain rfl : S = roots := by simpa using hS
    have hmem : ∀ x ∈ S, x = tx.hash ∧ x ∈ s.pool.mapTx := by
      unfold txToRemove at hroots
      split_ifs at hroots with hin <;> simp_all
      all_goals subst hroots; simp_all
    obtain ⟨hpart, hgone⟩ := removeStaged hs (fun x hx => mem_hashes.mpr (hmem x hx).2)
      (fun a b _ hab _ hb => absurd ((hmem b hb).1 ▸ hab) (hnone a)) hstaged
    refine ⟨hpart, fun _ hin => ?_⟩
    have hroots' : S = {tx.hash} := by simpa [txToRemove, hpart.mem hin] using hroots.symm
    exact hgone _ (by simp [hroots']) hin

theorem removeConflicts (hs : s.pool.Sound) (h : RemoveConflicts order tx s s') :
    SoundPart s.pool s'.pool := by
  refine h.keep (I := fun s' => SoundPart s.pool s'.pool) (fun txin s₁ s₂ hpass h₁ => ?_) (refl hs)
  unfold ConflictPass at hpass
  split at hpass
  · exact hpass ▸ h₁
  · dsimp only at hpass
    split_ifs at hpass
    · exact hpass ▸ h₁
    · obtain ⟨s₃, hremove, rfl⟩ := hpass
      exact (h₁.trans (remove h₁.sound (.inl rfl) hremove).1).clearPrioritisation _

theorem removeForBlock : ∀ {vtx : List CTransaction} {s : Removal}, s.pool.Sound →
    (∀ l₁ tx l₂, vtx = l₁ ++ tx :: l₂ → ∀ p, s.pool.Spends p tx.hash → ∃ t ∈ l₁, t.hash = p) →
    RemoveForBlock order vtx s s' → SoundPart s.pool s'.pool := by
  intro vtx
  induction vtx with
  | nil =>
    intro s hs _ h
    obtain rfl : s' = s := h
    exact refl hs
  | cons tx vtx ih =>
    intro s hs hblock h
    obtain ⟨s₃, ⟨s₁, s₂, hfirst, hconflicts, rfl⟩, hrest⟩ := h
    have hnone : ∀ p, ¬ s.pool.Spends p tx.hash := fun p hp => by
      obtain ⟨_, ht, -⟩ := hblock [] tx vtx rfl p hp
      exact absurd ht List.not_mem_nil
    obtain ⟨h₁, hgone⟩ := remove (s := ⟨s.pool, []⟩) hs (.inr hnone) hfirst
    have h₂ := h₁.trans (removeConflicts (s := ⟨s₁.pool, s.removed⟩) h₁.sound hconflicts)
    have h₃ := h₂.clearPrioritisation tx.hash
    refine h₃.trans (ih h₃.sound (fun l₁ t l₂ heq p hp => ?_) hrest)
    obtain ⟨t', ht', rfl⟩ := hblock (tx :: l₁) t l₂ (by rw [heq]; rfl) p (h₃.spends hp)
    rcases List.mem_cons.mp ht' with rfl | ht'
    · have h₄ := removeConflicts (s := ⟨s₁.pool, s.removed⟩) h₁.sound hconflicts
      exact absurd (h₄.mem hp.1) (hgone rfl)
    · exact ⟨t', ht', rfl⟩

end SoundPart

/-! ### Runs -/

/-- What the callers see to.  A transaction that is added is new, with the ancestors that have been
computed, and there is memory for it; one that is confirmed has its parents in the pool before it
in its block. -/
def Orderly (order : EntryOrder) (pool : IndexedPool) : PoolEvent → Prop
  | .add a => pool.IsNew a.entry.tx ∧ (∃ nFee, a.entry = .of a.entry.tx nFee) ∧
    (∃ l, pool.CalculateMemPoolAncestors order a.entry l true (some ⟨a.setAncestors, none⟩)) ∧
    pool.totalTxSize + a.entry.tx.getSerializeSize < 2 ^ 63
  | .remove tx fRecursive => fRecursive = true ∨ ∀ p, ¬ pool.Spends p tx.hash
  | .removeForBlock vtx => ∀ l₁ tx l₂, vtx = l₁ ++ tx :: l₂ → ∀ p, pool.Spends p tx.hash →
    ∃ t ∈ l₁, t.hash = p
  | _ => True

theorem sound_step {event : PoolEvent} (hs : pool.Sound) (hevent : Orderly order pool event)
    (h : Step order env pool event pool') : pool'.Sound := by
  cases event with
  | add a =>
    obtain ⟨hnew, ⟨nFee, hentry⟩, ⟨l, hcalc⟩, hsmall⟩ := hevent
    obtain ⟨haddable, hadd⟩ := h
    obtain ⟨hcore, -⟩ := add_spec hadd
    rw [hentry] at hcalc hcore
    obtain ⟨_, heq, hright, -⟩ := calculateMemPoolAncestors_right hs.consistent hcalc
    obtain rfl := Option.some.inj heq
    have hset : a.setAncestors = _ := (hright rfl).1
    rw [hset] at hcore
    exact hs.add hnew haddable.inputs haddable.unspent hsmall hcore
  | remove tx fRecursive =>
    obtain ⟨removed, removed', h⟩ := h
    exact (SoundPart.remove (s := ⟨pool, removed⟩) hs hevent h).1.sound
  | removeForBlock vtx =>
    obtain ⟨conflicts, conflicts', h⟩ := h
    exact (SoundPart.removeForBlock (s := ⟨pool, conflicts⟩) hs hevent h).sound
  | removeConflicts tx =>
    obtain ⟨removed, removed', h⟩ := h
    exact (SoundPart.removeConflicts (s := ⟨pool, removed⟩) hs h).sound
  | expire time =>
    obtain ⟨_, S, hS, hstaged, -⟩ := h
    obtain rfl := (calculateAllDescendants_iff hs.consistent toremove_subset).mp hS
    exact (SoundPart.removeStaged hs biUnion_subset traps_biUnion hstaged).1.sound
  | trimToSize sizelimit =>
    obtain ⟨noSpends, noSpends', h⟩ := h
    generalize ht : (pool, noSpends) = t at h
    generalize ht' : (pool', noSpends') = t' at h
    induction h generalizing pool noSpends with
    | fits _ =>
      subst ht
      exact (Prod.mk.inj ht').1 ▸ hs
    | pass _ hpass _ ih =>
      subst ht
      obtain ⟨it, S, txn, -, hS, -, hstaged, -⟩ := hpass
      have hit := mem_of_calculateDescendants hs.consistent hS
      have heq := (calculateDescendants_iff hs.consistent (Finset.empty_subset _)
        hit).mp (by simpa using hS)
      obtain rfl := Option.some.inj heq
      exact ih (SoundPart.removeStaged hs biUnion_subset traps_biUnion hstaged).1.sound trivial _ rfl ht'
  | clear =>
    obtain rfl : pool' = pool.clear := h
    exact sound_empty.of_eq rfl rfl rfl rfl

theorem orderly_paid : Orderly .byNumber empty (.add paidAddition) := by
  have hnone : CTxMemPool.empty.parentsIn paidAddition.entry.tx = ∅ := by
    ext x
    simp [CTxMemPool.empty]
  obtain ⟨r, hr⟩ := calculateMemPoolAncestors_returns consistent_empty .byNumber
    paidAddition.entry.tx 100 noLimits
  obtain rfl := calculateMemPoolAncestors_of_no_parent hnone hr
  exact ⟨isNew_empty (by decide), ⟨100, rfl⟩, ⟨noLimits, hr⟩, by decide⟩

theorem paidPool_sound : paidPool.Sound :=
  sound_step sound_empty orderly_paid (paidPool_step ⟨fun _ => 0, fun _ => none⟩)

/-- **The pool is sound in every run**: the links are the spending relation, `mapNextTx` has the
inputs, and the totals are those of what depends on each entry. -/
theorem sound_of_reached {events : List PoolEvent}
    (h : Reached order env (Orderly order) events pool) : pool.Sound := by
  induction h with
  | start => exact sound_empty
  | step _ hevent hstep ih => exact sound_step ih hevent hstep

theorem sound_of_reached_paid : paidPool.Sound :=
  sound_of_reached (.step .start orderly_paid (paidPool_step ⟨fun _ => 0, fun _ => none⟩))

/-! ### What Expire and TrimToSize leave -/

theorem hashes_eq (htx : ∀ x, pool'.txOf x = if x ∈ S then none else pool.txOf x) :
    pool'.hashes = pool.hashes \ S := by
  have hmem : ∀ (q : IndexedPool) x, x ∈ q.mapTx ↔ (q.txOf x).isSome := fun q x => by
    rw [txOf, Option.isSome_map, AList.lookup_isSome]
  ext x
  rw [Finset.mem_sdiff, mem_hashes, mem_hashes, hmem, hmem, htx]
  split_ifs with hx <;> simp [hx]

/-- **`Expire` has one outcome**: the transactions stay that neither are too old nor depend on one
that is, and it returns the number of the others. -/
theorem expire_iff (hs : pool.Sound) (order : EntryOrder) (time : ℤ) : ∃ pool' : IndexedPool,
    (∀ q removed, Expire order time pool q removed ↔
      q = pool' ∧ removed + pool'.hashes.card = pool.hashes.card) ∧
    ∀ x tx, pool'.txOf x = some tx ↔ pool.txOf x = some tx ∧ ∀ a ∈ pool.mapTx,
      Relation.ReflTransGen pool.Spends a x → time ≤ (pool.times.lookup a).getD 0 := by
  have hsub : (pool.toremove time).biUnion pool.descendants ⊆ pool.hashes := biUnion_subset
  obtain ⟨pool', hiff, -, htx⟩ := removeStaged_iff hs order hsub traps_biUnion
  refine ⟨pool', fun q removed => ?_, fun x tx => ?_⟩
  · simp only [Expire, calculateAllDescendants_iff hs.consistent toremove_subset, exists_eq_left,
      hiff, hashes_eq htx]
    have hcard := Finset.card_sdiff_add_card_eq_card hsub
    refine and_congr_right fun _ => ⟨?_, ?_⟩ <;> omega
  · rw [htx, Option.ite_none_left_eq_some, and_comm]
    refine and_congr_right fun hx => ?_
    have hmem := mem_of_txOf hx
    simp only [Finset.mem_biUnion, mem_descendants, hmem, true_and, not_exists, not_and, toremove,
      List.mem_toFinset, List.mem_filter, decide_eq_true_eq, and_imp, AList.mem_keys]
    refine forall_congr' fun a => forall_congr' fun _ => ⟨fun h hpath => ?_, fun h hold hpath => ?_⟩
    · exact not_lt.mp fun hold => h hold hpath
    · exact absurd hold (not_lt.mpr (h hpath))

theorem expire_iff_paid : ∃ pool' : IndexedPool, ∀ q removed,
    Expire .byNumber 2000 paidPool q removed ↔
      q = pool' ∧ removed + pool'.hashes.card = paidPool.hashes.card :=
  (expire_iff paidPool_sound .byNumber 2000).imp fun _ h => h.1

theorem mem_mapM {f : UInt256 → Option CTransaction} : ∀ {l : List UInt256} {txs},
    l.mapM f = some txs → ∀ {tx}, tx ∈ txs ↔ ∃ x ∈ l, f x = some tx := by
  intro l
  induction l with
  | nil =>
    intro txs h tx
    rw [← Option.some.inj h]
    simp
  | cons x l ih =>
    intro txs h tx
    rw [List.mapM_cons, Option.bind_eq_bind, Option.bind_eq_some_iff] at h
    obtain ⟨y, hy, h⟩ := h
    obtain ⟨ys, hys, h⟩ := Option.bind_eq_some_iff.mp h
    rw [← Option.some.inj h, List.mem_cons, ih hys]
    simp [hy, eq_comm]

/-- Something in the pool spends an output of a transaction. -/
def SpentIn (pool : IndexedPool) (h : UInt256) : Prop :=
  ∃ x tx, pool.txOf x = some tx ∧ ∃ i ∈ tx.vin, i.prevout.hash = h

theorem mem_noSpendsRemaining (hc : pool.Consistent) {txn : List CTransaction} {h : UInt256} :
    h ∈ pool.noSpendsRemaining txn ↔
      (∃ tx ∈ txn, ∃ i ∈ tx.vin, i.prevout.hash = h) ∧ h ∉ pool.mapTx ∧ ¬ pool.SpentIn h := by
  have hspent : ∀ h, (pool.mapNextTx.keys.any fun o => decide (o.hash = h)) = true ↔
      pool.SpentIn h := by
    intro h
    simp only [List.any_eq_true, decide_eq_true_eq, ← AList.mem_keys]
    constructor
    · rintro ⟨o, ho, rfl⟩
      obtain ⟨point, hpoint⟩ := OrderedMaps.lookup_of_mem ho
      obtain ⟨htx, hin⟩ := (hc.nextTx o point).mp hpoint
      obtain ⟨i, hi, rfl⟩ := Option.map_eq_some_iff.mp hin
      exact ⟨_, _, htx, i, List.mem_of_getElem? hi, rfl⟩
    · rintro ⟨x, tx, htx, i, hi, rfl⟩
      obtain ⟨j, hj⟩ := List.getElem?_of_mem hi
      obtain ⟨e, he, rfl⟩ := txOf_eq_some.mp htx
      have hpoint := (hc.nextTx i.prevout ⟨e.tx, j⟩).mpr
        ⟨by rw [hc.keyed x e he]; exact htx, by simp [hj]⟩
      exact ⟨_, OrderedMaps.mem_of_lookup hpoint, rfl⟩
  simp only [noSpendsRemaining, List.mem_flatMap, List.mem_filterMap]
  constructor
  · rintro ⟨tx, htx, i, hi, hsome⟩
    split_ifs at hsome with hmem hany
    obtain rfl := Option.some.inj hsome
    exact ⟨⟨tx, htx, i, hi, rfl⟩, hmem, fun hin => hany ((hspent _).mpr hin)⟩
  · rintro ⟨⟨tx, htx, i, hi, rfl⟩, hmem, hnot⟩
    refine ⟨tx, htx, i, hi, ?_⟩
    rw [if_neg hmem, if_neg fun hany => hnot ((hspent _).mp hany)]

/-- **What `TrimToSize` leaves and reports**, when it returns: it has removed transactions with all
that depends on them, and of what is not in the pool it reports what only they have spent. -/
theorem trimToSize_reports {sizelimit : ℕ} {t t' : IndexedPool × List UInt256} (hs : t.1.Sound)
    (h : TrimToSize order env sizelimit t t') :
    SoundPart t.1 t'.1 ∧ env.usage t'.1 ≤ sizelimit ∧
      (∀ x y, Relation.ReflTransGen t.1.Spends x y → y ∈ t'.1.mapTx → x ∈ t'.1.mapTx) ∧
      ∃ reported, t'.2 = t.2 ++ reported ∧ ∀ h ∉ t.1.mapTx, h ∈ reported ↔
        (∃ x tx, t.1.txOf x = some tx ∧ x ∉ t'.1.mapTx ∧ ∃ i ∈ tx.vin, i.prevout.hash = h) ∧
          ¬ t'.1.SpentIn h := by
  induction h with
  | @fits t hfits =>
    refine ⟨.refl hs, hfits, fun x y hpath hy => mem_of_reach_left hpath hy, [], by simp, ?_⟩
    rintro h -
    simp only [List.not_mem_nil, false_iff, not_and]
    rintro ⟨x, tx, htx, hout, -⟩
    exact absurd (mem_of_txOf htx) hout
  | @pass t t₁ t' _ hpass _ ih =>
    obtain ⟨it, stage, txn, -, hstage, htxn, hstaged, hreport⟩ := hpass
    have hit := mem_of_calculateDescendants hs.consistent hstage
    obtain rfl := Option.some.inj ((calculateDescendants_iff hs.consistent
      (Finset.empty_subset _) hit).mp (by simpa using hstage))
    obtain ⟨q, hiff, hq, htx⟩ := removeStaged_iff hs order biUnion_subset traps_biUnion
    obtain rfl := (hiff _).mp hstaged
    obtain ⟨hfirst, -⟩ := SoundPart.removeStaged hs biUnion_subset traps_biUnion hstaged
    obtain ⟨hpart, hfits, hclosed, reported, heq, hreported⟩ := ih hq
    have hgone : ∀ {x}, x ∈ t₁.1.mapTx ↔ x ∈ t.1.mapTx ∧ x ∉ (insert it ∅ : Finset _).biUnion
        t.1.descendants := fun {x} => by
      rw [← mem_hashes, hashes_eq htx, Finset.mem_sdiff, mem_hashes]
    have hunspent : ∀ {h}, ¬ t₁.1.SpentIn h → ¬ t'.1.SpentIn h := fun hnot ⟨x, tx, hx, hin⟩ =>
      hnot ⟨x, tx, hpart.part x tx hx, hin⟩
    refine ⟨hfirst.trans hpart, hfits, fun x y hpath hy => ?_,
      t₁.1.noSpendsRemaining txn ++ reported, by rw [heq, hreport, List.append_assoc], ?_⟩
    · induction hpath using Relation.ReflTransGen.head_induction_on with
      | refl => exact hy
      | head hab _ hb =>
        -- what depends on a transaction that is removed would be removed with it
        obtain ⟨hb₁, hout⟩ := hgone.mp (hpart.mem hb)
        have ha := hgone.mpr ⟨hab.1, fun ha => hout (mem_biUnion_of_reach ha (.single hab))⟩
        obtain ⟨-, tx, hbtx, hin⟩ := hab
        exact hclosed _ _ (.single ⟨ha, tx, hfirst.txOf_eq hbtx (hpart.mem hb), hin⟩) hb
    · intro h hh
      rw [List.mem_append, mem_noSpendsRemaining hq.consistent,
        hreported h fun hin => hh (hfirst.mem hin)]
      constructor
      · rintro (⟨⟨tx, hin, hspends⟩, -, hnot⟩ | ⟨⟨x, tx, hx, hout, hspends⟩, hnot⟩)
        · obtain ⟨x, hx, hxtx⟩ := (mem_mapM htxn).mp hin
          have hout := fun hmem => (hgone.mp (hpart.mem hmem)).2 ((order.mem_visit _ x).mp hx)
          exact ⟨⟨x, tx, hxtx, hout, hspends⟩, hunspent hnot⟩
        · exact ⟨⟨x, tx, hfirst.part x tx hx, hout, hspends⟩, hnot⟩
      · rintro ⟨⟨x, tx, hx, hout, hspends⟩, hnot⟩
        by_cases hx₁ : x ∈ (insert it ∅ : Finset _).biUnion t.1.descendants
        · by_cases hspent : t₁.1.SpentIn h
          · -- the other spender is removed later
            obtain ⟨y, ty, hy, hspends'⟩ := hspent
            exact .inr ⟨⟨y, ty, hy, fun hmem => hnot ⟨y, ty, hpart.txOf_eq hy hmem, hspends'⟩,
              hspends'⟩, hnot⟩
          · exact .inl ⟨⟨tx, (mem_mapM htxn).mpr ⟨x, (order.mem_visit _ x).mpr hx₁, hx⟩, hspends⟩,
              fun hin => hh (hfirst.mem hin), hspent⟩
        · exact .inr ⟨⟨x, tx, by rw [htx, if_neg hx₁]; exact hx, hout, hspends⟩, hnot⟩

theorem trimToSize_reports_paid : ∃ t', TrimToSize .byNumber
    ⟨fun pool => pool.hashes.card, fun _ => some 1⟩ 0 (paidPool, []) t' ∧ 7 ∈ t'.2 := by
  have hs := paidPool_sound
  have hhashes : paidPool.hashes = {1} := by decide +kernel
  have hit : (1 : UInt256) ∈ paidPool.mapTx := by rw [← mem_hashes, hhashes]; simp
  obtain ⟨q, hiff, -, htx⟩ := removeStaged_iff (S := ({1} : Finset UInt256).biUnion _) hs .byNumber
    biUnion_subset traps_biUnion
  have hone : ({1} : Finset UInt256).biUnion paidPool.descendants = {1} := by
    refine Finset.Subset.antisymm (hhashes ▸ biUnion_subset) fun x hx => ?_
    obtain rfl := Finset.mem_singleton.mp hx
    exact Finset.mem_biUnion.mpr ⟨1, hx, mem_descendants.mpr ⟨hit, .refl⟩⟩
  have hstage : paidPool.CalculateDescendants .byNumber 1 _ _ :=
    (calculateDescendants_iff hs.consistent (Finset.empty_subset _) hit).mpr rfl
  rw [hone] at hiff htx
  rw [Finset.biUnion_empty, insert_empty_eq, hone] at hstage
  have hempty : q.hashes = ∅ := by rw [hashes_eq htx, hhashes]; rfl
  have hpass : TrimPass .byNumber ⟨fun pool => pool.hashes.card, fun _ => some 1⟩ (paidPool, [])
      (q, [] ++ q.noSpendsRemaining [paidAddition.entry.tx]) := by
    exact ⟨1, {1}, _, rfl, hstage, (by decide +kernel), (hiff q).mpr rfl, rfl⟩
  have h : TrimToSize .byNumber _ 0 (paidPool, []) _ :=
    .pass (by simp [hhashes]) hpass (.fits (by simp [hempty]))
  refine ⟨_, h, ?_⟩
  obtain ⟨-, -, -, reported, heq, hreported⟩ := trimToSize_reports hs h
  have hout : ∀ x, x ∉ q.mapTx := fun x hx => by simpa [hempty] using mem_hashes.mpr hx
  rw [heq]
  refine List.mem_append_right _ ((hreported 7 ?_).mpr ⟨⟨1, paidAddition.entry.tx, by
    decide +kernel, hout 1, _, List.mem_singleton_self _, rfl⟩, ?_⟩)
  · rw [← mem_hashes, hhashes]
    decide
  · rintro ⟨x, tx, hx, -⟩
    exact hout x (mem_of_txOf hx)

end IndexedPool
end Stonecoin
