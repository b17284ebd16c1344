/-
Transactions whose parents are missing (`mapOrphanTransactions` and
`mapOrphanTransactionsByPrev` in `main.cpp`).

An iterator is the key of its entry.  To follow one whose entry is gone is `none`.

  * `orphans_agree`: so it holds in every run, where `LimitOrphanTxSize` ends, whatever hashes
        are drawn.
-/
import Stonecoin.GovernanceVote
import Stonecoin.KeyedSets
import Stonecoin.Loops
import Stonecoin.OrderedMaps
import Stonecoin.Runs

namespace Stonecoin

structure COrphanTx where
  tx : CTransaction
  fromPeer : ℤ
deriving DecidableEq, Repr

structure OrphanMaps where
  mapOrphanTransactions : AList fun _ : UInt256 => COrphanTx
  mapOrphanTransactionsByPrev : AList fun _ : UInt256 => Finset UInt256

namespace OrphanMaps

def parents (tx : CTransaction) : List UInt256 := tx.vin.map fun txin => txin.prevout.hash

def addOrphanTx (s : OrphanMaps) (tx : CTransaction) (peer : ℤ) : OrphanMaps × Bool :=
  if tx.hash ∈ s.mapOrphanTransactions then (s, false)
  else if 5000 < tx.getSerializeSize then (s, false)
  else (⟨s.mapOrphanTransactions.insert tx.hash ⟨tx, peer⟩,
    (parents tx).foldl (KeyedSets.add tx.hash) s.mapOrphanTransactionsByPrev⟩, true)

def eraseOrphanTx (s : OrphanMaps) (hash : UInt256) : OrphanMaps :=
  match s.mapOrphanTransactions.lookup hash with
  | none => s
  | some it => ⟨s.mapOrphanTransactions.erase hash,
      (parents it.tx).foldl (KeyedSets.remove hash) s.mapOrphanTransactionsByPrev⟩

/-- The order of the entries: that of `uint256`. -/
def le (a b : UInt256) : Prop := uint256Lt b a = false

instance : DecidableRel le := fun a b => inferInstanceAs (Decidable (uint256Lt b a = false))

def keys (s : OrphanMaps) : List UInt256 :=
  (OrderedMaps.sortedEntries le s.mapOrphanTransactions).map Sigma.fst

/-- The loop of `EraseOrphansFor`.  The entries in front of `iter` are the ones that may be
erased; those that follow must be there still. -/
def eraseOrphansForLoop (peer : ℤ) : List UInt256 → OrphanMaps → Option OrphanMaps
  | [], s => some s
  | maybeErase :: iter, s =>
    match s.mapOrphanTransactions.lookup maybeErase with
    | none => none
    | some orphan =>
      eraseOrphansForLoop peer iter
        (if orphan.fromPeer = peer then s.eraseOrphanTx orphan.tx.hash else s)

def eraseOrphansFor (s : OrphanMaps) (peer : ℤ) : Option OrphanMaps :=
  eraseOrphansForLoop peer s.keys s

/-- `lower_bound`, or `begin()` if that is the end. -/
def randomOrphan (s : OrphanMaps) (randomhash : UInt256) : Option UInt256 :=
  (s.keys.find? fun k => !uint256Lt k randomhash).or s.keys.head?

/-- A pass of the loop of `LimitOrphanTxSize`; `rand` are the hashes that are drawn. -/
def limitPass (nMaxOrphans : ℕ) (rand : ℕ → UInt256) :
    OrphanMaps × ℕ → (OrphanMaps × ℕ) ⊕ Option (OrphanMaps × ℕ)
  | (s, nEvicted) =>
    if nMaxOrphans < OrderedMaps.size s.mapOrphanTransactions then
      match s.randomOrphan (rand nEvicted) with
      | none => .inr none
      | some it => .inl (s.eraseOrphanTx it, nEvicted + 1)
    else .inr (some (s, nEvicted))

/-- `LimitOrphanTxSize` ends with this state and this number of evicted orphans. -/
def LimitOrphanTxSize (s : OrphanMaps) (nMaxOrphans : ℕ) (rand : ℕ → UInt256)
    (r : Option (OrphanMaps × ℕ)) : Prop :=
  Loops.Ends (limitPass nMaxOrphans rand) (s, 0) r

inductive Op where
  | addOrphanTx (tx : CTransaction) (peer : ℤ)
  | eraseOrphanTx (hash : UInt256)
  | eraseOrphansFor (peer : ℤ)
  | limitOrphanTxSize (nMaxOrphans : ℕ) (rand : ℕ → UInt256)

/-- What a call does. -/
def Step (s : OrphanMaps) : Op → OrphanMaps → Prop
  | .addOrphanTx tx peer, s' => s' = (s.addOrphanTx tx peer).1
  | .eraseOrphanTx hash, s' => s' = s.eraseOrphanTx hash
  | .eraseOrphansFor peer, s' => s.eraseOrphansFor peer = some s'
  | .limitOrphanTxSize nMaxOrphans rand, s' =>
    ∃ nEvicted, s.LimitOrphanTxSize nMaxOrphans rand (some (s', nEvicted))

def empty : OrphanMaps := ⟨∅, ∅⟩

/-! ### The maps agree -/

/-- Every orphan is under its hash, and in the sets of its parents and no others. -/
structure Agree (s : OrphanMaps) : Prop where
  hashes : ∀ h orphan, s.mapOrphanTransactions.lookup h = some orphan → orphan.tx.hash = h
  prevs : ∀ p h, h ∈ KeyedSets.get s.mapOrphanTransactionsByPrev p ↔
    ∃ orphan, s.mapOrphanTransactions.lookup h = some orphan ∧ p ∈ parents orphan.tx
  noneEmpty : KeyedSets.NoneEmpty s.mapOrphanTransactionsByPrev

variable {s s' : OrphanMaps}

theorem Agree.empty : OrphanMaps.empty.Agree := by
  constructor
  · intro h orphan hl
    rw [OrphanMaps.empty, AList.lookup_empty] at hl
    cases hl
  · intro p h
    simp [OrphanMaps.empty, KeyedSets.get]
  · intro k set hl
    rw [OrphanMaps.empty, AList.lookup_empty] at hl
    cases hl

theorem Agree.addOrphanTx (hs : s.Agree) (tx : CTransaction) (peer : ℤ) :
    (s.addOrphanTx tx peer).1.Agree := by
  by_cases hin : tx.hash ∈ s.mapOrphanTransactions
  · rwa [OrphanMaps.addOrphanTx, if_pos hin]
  by_cases hsize : 5000 < tx.getSerializeSize
  · rwa [OrphanMaps.addOrphanTx, if_neg hin, if_pos hsize]
  rw [OrphanMaps.addOrphanTx, if_neg hin, if_neg hsize]
  have hnone : s.mapOrphanTransactions.lookup tx.hash = none := AList.lookup_eq_none.mpr hin
  refine ⟨fun h orphan hl => ?_, fun p h => ?_, hs.noneEmpty.foldl_add _ _⟩
  · by_cases hh : h = tx.hash
    · subst hh
      rw [AList.lookup_insert] at hl
      rw [← Option.some.inj hl]
    · rw [AList.lookup_insert_ne hh] at hl
      exact hs.hashes h orphan hl
  · show h ∈ KeyedSets.get ((parents tx).foldl (KeyedSets.add tx.hash) _) p ↔ _
    rw [KeyedSets.mem_foldl_add, hs.prevs p h]
    by_cases hh : h = tx.hash
    · subst hh
      simp [hnone]
    · simp [hh, AList.lookup_insert_ne hh]

theorem Agree.eraseOrphanTx (hs : s.Agree) (hash : UInt256) : (s.eraseOrphanTx hash).Agree ∧
    (s.eraseOrphanTx hash).mapOrphanTransactions = s.mapOrphanTransactions.erase hash := by
  rcases hl : s.mapOrphanTransactions.lookup hash with - | orphan
  · have hsame : s.eraseOrphanTx hash = s := by rw [OrphanMaps.eraseOrphanTx, hl]
    have hnot : hash ∉ s.mapOrphanTransactions := AList.lookup_eq_none.mp hl
    rw [hsame]
    refine ⟨hs, AList.ext ?_⟩
    exact (List.kerase_of_notMem_keys hnot).symm
  · have heq : s.eraseOrphanTx hash = ⟨s.mapOrphanTransactions.erase hash,
        (parents orphan.tx).foldl (KeyedSets.remove hash) s.mapOrphanTransactionsByPrev⟩ := by
      rw [OrphanMaps.eraseOrphanTx, hl]
    rw [heq]
    refine ⟨⟨fun h other hother => ?_, fun p h => ?_, hs.noneEmpty.foldl_remove _ _⟩, rfl⟩
    · by_cases hh : h = hash
      · rw [hh, AList.lookup_erase] at hother
        cases hother
      · rw [AList.lookup_erase_ne hh] at hother
        exact hs.hashes h other hother
    · show h ∈ KeyedSets.get ((parents orphan.tx).foldl (KeyedSets.remove hash) _) p ↔ _
      rw [KeyedSets.mem_foldl_remove, hs.prevs p h]
      by_cases hh : h = hash
      · subst hh
        rw [AList.lookup_erase, hl]
        simp
      · simp [hh, AList.lookup_erase_ne hh]

/-! ### Loops -/

theorem nodup_keys (s : OrphanMaps) : s.keys.Nodup :=
  (((OrderedMaps.perm_sortedEntries le s.mapOrphanTransactions).map Sigma.fst).nodup_iff).mpr
    s.mapOrphanTransactions.keys_nodup

theorem mem_keys {h : UInt256} : h ∈ s.keys ↔ h ∈ s.mapOrphanTransactions :=
  ((OrderedMaps.perm_sortedEntries le s.mapOrphanTransactions).map Sigma.fst).mem_iff

theorem Agree.eraseOrphansForLoop {ks : List UInt256} (hs : s.Agree) (peer : ℤ)
    (hnodup : ks.Nodup) (hks : ∀ k ∈ ks, k ∈ s.mapOrphanTransactions) :
    ∃ s', eraseOrphansForLoop peer ks s = some s' ∧ s'.Agree ∧
      ∀ h, s'.mapOrphanTransactions.lookup h =
        if h ∈ ks then (s.mapOrphanTransactions.lookup h).filter (·.fromPeer ≠ peer)
        else s.mapOrphanTransactions.lookup h := by
  induction ks generalizing s with
  | nil => exact ⟨s, rfl, hs, fun h => by simp⟩
  | cons k ks ih =>
    obtain ⟨hk, hnodup'⟩ := List.nodup_cons.mp hnodup
    obtain ⟨orphan, hl⟩ := Option.isSome_iff_exists.mp
      (AList.lookup_isSome.mpr (hks k List.mem_cons_self))
    have hhash := hs.hashes k orphan hl
    -- what the first pass leaves
    set s₁ := if orphan.fromPeer = peer then s.eraseOrphanTx orphan.tx.hash else s with hs₁
    have hpass : s₁.Agree ∧ ∀ h, s₁.mapOrphanTransactions.lookup h =
        if h = k then (s.mapOrphanTransactions.lookup h).filter (·.fromPeer ≠ peer)
        else s.mapOrphanTransactions.lookup h := by
      by_cases hpeer : orphan.fromPeer = peer
      · obtain ⟨hagree, hmap⟩ := hs.eraseOrphanTx orphan.tx.hash
        rw [hs₁, if_pos hpeer]
        refine ⟨hagree, fun h => ?_⟩
        rw [hmap, hhash]
        by_cases hh : h = k
        · rw [if_pos hh, hh, AList.lookup_erase, hl]
          simp [Option.filter, hpeer]
        · rw [if_neg hh, AList.lookup_erase_ne hh]
      · rw [hs₁, if_neg hpeer]
        refine ⟨hs, fun h => ?_⟩
        by_cases hh : h = k
        · rw [if_pos hh, hh, hl]
          simp [Option.filter, hpeer]
        · rw [if_neg hh]
    have hrest : ∀ j ∈ ks, j ∈ s₁.mapOrphanTransactions := by
      intro j hj
      have hne : j ≠ k := fun he => hk (he ▸ hj)
      rw [← AList.lookup_isSome, hpass.2 j, if_neg hne, AList.lookup_isSome]
      exact hks j (List.mem_cons_of_mem k hj)
    obtain ⟨s', hloop, hagree, hlookup⟩ := ih hpass.1 hnodup' hrest
    refine ⟨s', ?_, hagree, fun h => ?_⟩
    · rw [OrphanMaps.eraseOrphansForLoop, hl]
      exact hloop
    · rw [hlookup h, hpass.2 h]
      by_cases hh : h = k
      · subst hh
        simp [hk]
      · simp [hh]

theorem Agree.eraseOrphansFor (hs : s.Agree) (peer : ℤ) :
    ∃ s', s.eraseOrphansFor peer = some s' ∧ s'.Agree ∧
      ∀ h, s'.mapOrphanTransactions.lookup h =
        (s.mapOrphanTransactions.lookup h).filter (·.fromPeer ≠ peer) := by
  obtain ⟨s', hloop, hagree, hlookup⟩ :=
    hs.eraseOrphansForLoop peer s.nodup_keys fun k hk => mem_keys.mp hk
  refine ⟨s', hloop, hagree, fun h => ?_⟩
  rw [hlookup h]
  by_cases hh : h ∈ s.keys
  · rw [if_pos hh]
  · have hnone : s.mapOrphanTransactions.lookup h = none :=
      AList.lookup_eq_none.mpr fun hmem => hh (mem_keys.mpr hmem)
    rw [if_neg hh, hnone]
    rfl

theorem randomOrphan_mem (hsize : 0 < OrderedMaps.size s.mapOrphanTransactions)
    (randomhash : UInt256) :
    ∃ it, s.randomOrphan randomhash = some it ∧ it ∈ s.mapOrphanTransactions := by
  have hlength : s.keys.length = OrderedMaps.size s.mapOrphanTransactions :=
    ((OrderedMaps.perm_sortedEntries le s.mapOrphanTransactions).map Sigma.fst).length_eq
  rw [randomOrphan]
  rcases hfind : s.keys.find? (fun k => !uint256Lt k randomhash) with - | it
  · -- all hashes are lower, so the first one is taken
    rcases hkeys : s.keys with - | ⟨k, ks⟩
    · rw [hkeys, List.length_nil] at hlength
      omega
    · exact ⟨k, rfl, mem_keys.mp (hkeys ▸ List.mem_cons_self)⟩
  · exact ⟨it, rfl, mem_keys.mp (List.mem_of_find?_eq_some hfind)⟩

/-- The orphans that are left are as they were. -/
def Kept (s s' : OrphanMaps) : Prop :=
  ∀ h orphan, s'.mapOrphanTransactions.lookup h = some orphan →
    s.mapOrphanTransactions.lookup h = some orphan

/-- What holds in front of every pass. -/
structure Evicting (s : OrphanMaps) (now : OrphanMaps × ℕ) : Prop where
  agree : now.1.Agree
  kept : s.Kept now.1
  count : OrderedMaps.size now.1.mapOrphanTransactions + now.2 =
    OrderedMaps.size s.mapOrphanTransactions

theorem Evicting.pass {now : OrphanMaps × ℕ} (h : s.Evicting now) (nMaxOrphans : ℕ)
    (rand : ℕ → UInt256) :
    (∃ next, limitPass nMaxOrphans rand now = .inl next ∧ s.Evicting next ∧
      OrderedMaps.size next.1.mapOrphanTransactions < OrderedMaps.size now.1.mapOrphanTransactions) ∨
    limitPass nMaxOrphans rand now = .inr (some now) ∧
      OrderedMaps.size now.1.mapOrphanTransactions ≤ nMaxOrphans := by
  obtain ⟨now, nEvicted⟩ := now
  by_cases hsize : nMaxOrphans < OrderedMaps.size now.mapOrphanTransactions
  · obtain ⟨it, hit, hmem⟩ := randomOrphan_mem (Nat.zero_lt_of_lt hsize) (rand nEvicted)
    obtain ⟨hagree, hmap⟩ := h.agree.eraseOrphanTx it
    have herase := OrderedMaps.size_erase hmem
    have hcount : OrderedMaps.size now.mapOrphanTransactions + nEvicted =
        OrderedMaps.size s.mapOrphanTransactions := h.count
    have hsize' : OrderedMaps.size (now.eraseOrphanTx it).mapOrphanTransactions + 1 =
        OrderedMaps.size now.mapOrphanTransactions := by rw [hmap, herase]
    refine .inl ⟨(now.eraseOrphanTx it, nEvicted + 1), ?_, ⟨hagree, ?_, ?_⟩, ?_⟩
    · rw [limitPass, if_pos hsize, hit]
    · intro k orphan hk
      change (now.eraseOrphanTx it).mapOrphanTransactions.lookup k = some orphan at hk
      apply h.kept k orphan
      show now.mapOrphanTransactions.lookup k = some orphan
      by_cases hne : k = it
      · rw [hmap, hne, AList.lookup_erase] at hk
        cases hk
      · rwa [hmap, AList.lookup_erase_ne hne] at hk
    · show OrderedMaps.size (now.eraseOrphanTx it).mapOrphanTransactions + (nEvicted + 1) = _
      omega
    · show OrderedMaps.size (now.eraseOrphanTx it).mapOrphanTransactions <
        OrderedMaps.size now.mapOrphanTransactions
      omega
  · exact .inr ⟨by rw [limitPass, if_neg hsize], Nat.le_of_not_lt hsize⟩

theorem Agree.limitOrphanTxSize (hs : s.Agree) (nMaxOrphans : ℕ) (rand : ℕ → UInt256) :
    ∃ s' nEvicted, s.LimitOrphanTxSize nMaxOrphans rand (some (s', nEvicted)) ∧ s'.Agree ∧
      OrderedMaps.size s'.mapOrphanTransactions ≤ nMaxOrphans ∧ s.Kept s' ∧
      OrderedMaps.size s'.mapOrphanTransactions + nEvicted =
        OrderedMaps.size s.mapOrphanTransactions := by
  have hstart : s.Evicting (s, 0) := ⟨hs, fun _ _ h => h, rfl⟩
  obtain ⟨r, hr⟩ : ∃ r, s.LimitOrphanTxSize nMaxOrphans rand r := by
    refine Loops.ends_of_measure (I := s.Evicting)
      (fun now => OrderedMaps.size now.1.mapOrphanTransactions) (fun now next h hpass => ?_) hstart
    rcases h.pass nMaxOrphans rand with
      ⟨next', hpass', hnext, hlt⟩ | ⟨hpass', -⟩
    · obtain rfl := Sum.inl.inj (hpass'.symm.trans hpass)
      exact ⟨hnext, hlt⟩
    · exact absurd (hpass'.symm.trans hpass) (by simp)
  have hpost : ∃ now, r = some now ∧ s.Evicting now ∧
      OrderedMaps.size now.1.mapOrphanTransactions ≤ nMaxOrphans := by
    refine hr.post (I := s.Evicting) (Q := fun r => ∃ now, r = some now ∧ s.Evicting now ∧
      OrderedMaps.size now.1.mapOrphanTransactions ≤ nMaxOrphans)
      (fun now next h hpass => ?_) (fun now r h hpass => ?_) hstart
    · rcases h.pass nMaxOrphans rand with
        ⟨next', hpass', hnext, -⟩ | ⟨hpass', -⟩
      · obtain rfl := Sum.inl.inj (hpass'.symm.trans hpass)
        exact hnext
      · exact absurd (hpass'.symm.trans hpass) (by simp)
    · rcases h.pass nMaxOrphans rand with
        ⟨next', hpass', -⟩ | ⟨hpass', hle⟩
      · exact absurd (hpass'.symm.trans hpass) (by simp)
      · exact ⟨now, (Sum.inr.inj (hpass'.symm.trans hpass)).symm, h, hle⟩
  obtain ⟨⟨s', nEvicted⟩, rfl, hnow, hle⟩ := hpost
  exact ⟨s', nEvicted, hr, hnow.agree, hle, hnow.kept, hnow.count⟩

/-! ### Runs -/

theorem Agree.step {op : Op} (hs : s.Agree) (h : s.Step op s') : s'.Agree := by
  cases op with
  | addOrphanTx tx peer =>
    obtain rfl : s' = _ := h
    exact hs.addOrphanTx tx peer
  | eraseOrphanTx hash =>
    obtain rfl : s' = _ := h
    exact (hs.eraseOrphanTx hash).1
  | eraseOrphansFor peer =>
    obtain ⟨s₁, hs₁, hagree, -⟩ := hs.eraseOrphansFor peer
    obtain rfl := Option.some.inj (hs₁.symm.trans h)
    exact hagree
  | limitOrphanTxSize nMaxOrphans rand =>
    obtain ⟨nEvicted, hends⟩ := h
    obtain ⟨s₁, n₁, hs₁, hagree, -⟩ := hs.limitOrphanTxSize nMaxOrphans rand
    obtain rfl := (Prod.mk.inj (Option.some.inj (hs₁.unique hends))).1
    exact hagree

theorem Agree.of_run {ops : List Op} (hrun : Runs.Run Step OrphanMaps.empty ops s) : s.Agree :=
  hrun.invariant (fun _ _ _ hs h => hs.step h) Agree.empty

/-- **The maps agree in every run**, no iterator is followed that leads nowhere, and
`LimitOrphanTxSize` ends with what it has been asked for. -/
theorem orphans_agree {ops : List Op} (hrun : Runs.Run Step empty ops s) :
    (∀ p h, (∃ set, s.mapOrphanTransactionsByPrev.lookup p = some set ∧ h ∈ set) ↔
      ∃ orphan, s.mapOrphanTransactions.lookup h = some orphan ∧
        ∃ txin ∈ orphan.tx.vin, txin.prevout.hash = p) ∧
    (∀ p set, s.mapOrphanTransactionsByPrev.lookup p = some set → set.Nonempty) ∧
    (∀ h orphan, s.mapOrphanTransactions.lookup h = some orphan → orphan.tx.hash = h) ∧
    (∀ peer, ∃ s', s.eraseOrphansFor peer = some s' ∧
      ∀ h, s'.mapOrphanTransactions.lookup h =
        (s.mapOrphanTransactions.lookup h).filter (·.fromPeer ≠ peer)) ∧
    ∀ nMaxOrphans rand, ∃ s' nEvicted,
      s.LimitOrphanTxSize nMaxOrphans rand (some (s', nEvicted)) ∧ s'.Agree ∧
      OrderedMaps.size s'.mapOrphanTransactions ≤ nMaxOrphans ∧ s.Kept s' ∧
      OrderedMaps.size s'.mapOrphanTransactions + nEvicted =
        OrderedMaps.size s.mapOrphanTransactions := by
  have hs := Agree.of_run hrun
  refine ⟨fun p h => ?_, hs.noneEmpty, hs.hashes, fun peer => ?_, hs.limitOrphanTxSize⟩
  · rw [← KeyedSets.mem_get, hs.prevs p h]
    simp only [parents, List.mem_map]
  · obtain ⟨s', hs', -, hlookup⟩ := hs.eraseOrphansFor peer
    exact ⟨s', hs', hlookup⟩

/-- A transaction that spends two outputs of one parent. -/
def twiceOf : CTransaction := ⟨1, 1, [⟨⟨7, 0⟩, [], 0⟩, ⟨⟨7, 1⟩, [], 0⟩], [], 0⟩

theorem orphans_agree_twiceOf : ∃ set,
    (empty.addOrphanTx twiceOf 3).1.mapOrphanTransactionsByPrev.lookup 7 = some set ∧
      1 ∈ set := by
  have hrun : Runs.Run Step empty [.addOrphanTx twiceOf 3] (empty.addOrphanTx twiceOf 3).1 :=
    .cons rfl (.nil _)
  exact ((orphans_agree hrun).1 7 1).mpr ⟨⟨twiceOf, 3⟩, by decide, _, List.mem_cons_self, rfl⟩

end OrphanMaps

end Stonecoin
