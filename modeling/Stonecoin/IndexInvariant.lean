/-
The invariant of the block index.

`Linking` is about transaction counts and `mapBlocksUnlinked`; it takes the queue of
`ReceivedBlockTransactions` into account, which is empty between calls.  `Ranking` is about
failure bits, the candidates and the tip.  Candidates are wanted also where an ancestor has
failed, because `ReconsiderBlock` does not look at the descendants that carry no bit
themselves.
-/
import Stonecoin.BlockIndexOps

namespace Stonecoin

namespace ChainState

open ParentTree Runs

variable {verdict : BlockPtr → ConnectVerdict} {s s' : ChainState} {t t' : BlockPtr}
  {queue : List BlockPtr}

/-! ### Transaction counts -/

def chainSum (s : ChainState) (b : BlockPtr) : ℕ := ((s.line b).map fun a => (s.node a).nTx).sum

/-- How the counts of an entry fit together. -/
structure Counts (s : ChainState) : Prop where
  haveData : ∀ b ∈ s.tree.mapBlockIndex,
    (s.node b).nStatus.haveData = true ↔ (s.node b).nTx ≠ 0
  validTree : ∀ b ∈ s.tree.mapBlockIndex, BLOCK_VALID_TREE ≤ (s.node b).nStatus.valid
  validTx : ∀ b ∈ s.tree.mapBlockIndex, (s.node b).nTx ≠ 0 →
    BLOCK_VALID_TRANSACTIONS ≤ (s.node b).nStatus.valid
  sum_lt : ∀ b ∈ s.tree.mapBlockIndex, s.chainSum b < 2 ^ 32
  sum_eq : ∀ b ∈ s.tree.mapBlockIndex, (s.node b).nChainTx ≠ 0 →
    (s.node b).nChainTx = s.chainSum b
  tx : ∀ b ∈ s.tree.mapBlockIndex, (s.node b).nChainTx ≠ 0 → (s.node b).nTx ≠ 0
  parent : ∀ b ∈ s.tree.mapBlockIndex, (s.node b).nChainTx ≠ 0 →
    ∀ p, s.tree.pprev b = some p → (s.node p).nChainTx ≠ 0

/-- Transaction counts and `mapBlocksUnlinked`, while the blocks of `queue` wait for their
`nChainTx`. -/
structure Linking (queue : List BlockPtr) (s : ChainState) : Prop extends Counts s where
  waiting : ∀ q ∈ queue, q ∈ s.tree.mapBlockIndex ∧ (s.node q).nTx ≠ 0 ∧
    (s.node q).nChainTx = 0 ∧ ∀ p, s.tree.pprev q = some p → (s.node p).nChainTx ≠ 0
  unlinked : ∀ p b, (p, b) ∈ s.mapBlocksUnlinked → b ∈ s.tree.mapBlockIndex ∧
    s.tree.pprev b = some p ∧ (s.node b).nTx ≠ 0 ∧ (s.node p).nChainTx = 0
  complete : ∀ b ∈ s.tree.mapBlockIndex, (s.node b).nTx ≠ 0 → (s.node b).nChainTx = 0 →
    b ∈ queue ∨ ∃ p, (p, b) ∈ s.mapBlocksUnlinked
  nodup : (queue ++ s.mapBlocksUnlinked.map Prod.snd).Nodup

theorem Counts.linked_line (h : Counts s) {b : BlockPtr} (hb : b ∈ s.tree.mapBlockIndex)
    (hl : (s.node b).nChainTx ≠ 0) : ∀ a ∈ s.line b, (s.node a).nChainTx ≠ 0 := by
  revert hb hl
  apply s.tree.graded.upward (P := fun b => b ∈ s.tree.mapBlockIndex →
    (s.node b).nChainTx ≠ 0 → ∀ a ∈ s.line b, (s.node a).nChainTx ≠ 0) _ b
  intro b ih hb hl a ha
  rcases (mem_line_iff s.tree.graded).mp ha with rfl | ⟨p, hp, hap⟩
  · exact hl
  · exact ih p hp (s.tree.indexed b p hp).2 (h.parent b hb hl p hp) a hap

theorem Linking.nChainTx_iff (h : Linking [] s) {b : BlockPtr}
    (hb : b ∈ s.tree.mapBlockIndex) :
    (s.node b).nChainTx ≠ 0 ↔ ∀ a ∈ s.line b, (s.node a).nTx ≠ 0 := by
  constructor
  · intro hl a ha
    exact h.tx a (BlockTree.mem_of_mem_line hb ha) (h.linked_line hb hl a ha)
  · revert hb
    apply s.tree.graded.upward (P := fun b => b ∈ s.tree.mapBlockIndex →
      (∀ a ∈ s.line b, (s.node a).nTx ≠ 0) → (s.node b).nChainTx ≠ 0) _ b
    intro b ih hb hall h0
    -- a received block that is not linked waits for its parent
    rcases h.complete b hb (hall b (s.tree.mem_line_self b)) h0 with hq | ⟨p, hp⟩
    · cases hq
    · obtain ⟨-, hpp, -, hp0⟩ := h.unlinked p b hp
      exact ih p hpp (s.tree.indexed b p hpp).2
        (fun a ha => hall a (mem_line_parent s.tree.graded hpp ha)) hp0

/-- Nothing changes for the counts. -/
structure SameLinks (s s' : ChainState) : Prop where
  tree : s'.tree = s.tree
  nTx : ∀ b, (s'.node b).nTx = (s.node b).nTx
  nChainTx : ∀ b, (s'.node b).nChainTx = (s.node b).nChainTx
  haveData : ∀ b, (s'.node b).nStatus.haveData = (s.node b).nStatus.haveData
  valid : ∀ b, (s.node b).nStatus.valid ≤ (s'.node b).nStatus.valid
  unlinked : s'.mapBlocksUnlinked = s.mapBlocksUnlinked

theorem SameLinks.chainSum (h : SameLinks s s') (b : BlockPtr) :
    s'.chainSum b = s.chainSum b := by
  unfold ChainState.chainSum
  rw [show s'.line b = s.line b by show s'.tree.line b = s.tree.line b; rw [h.tree]]
  congr 1
  exact List.map_congr_left fun a _ => h.nTx a

theorem Counts.same (h : Counts s) (he : SameLinks s s') : Counts s' := by
  constructor
  all_goals
    simp only [he.tree, he.nTx, he.nChainTx, he.haveData, he.chainSum]
  · exact h.haveData
  · exact fun b hb => Nat.le_trans (h.validTree b hb) (he.valid b)
  · exact fun b hb hn => Nat.le_trans (h.validTx b hb hn) (he.valid b)
  · exact h.sum_lt
  · exact h.sum_eq
  · exact h.tx
  · exact h.parent

theorem Linking.same (h : Linking queue s) (he : SameLinks s s') : Linking queue s' := by
  refine ⟨h.toCounts.same he, ?_, ?_, ?_, ?_⟩
  all_goals
    simp only [he.tree, he.nTx, he.nChainTx, he.unlinked]
  · exact h.waiting
  · exact h.unlinked
  · exact h.complete
  · exact h.nodup

theorem Evolves.same (h : Evolves verdict s s') : SameLinks s s' :=
  ⟨h.tree, fun b => (h.entry b).nTx, fun b => (h.entry b).nChainTx,
    fun b => (h.entry b).haveData, fun b => (h.entry b).le_valid, h.unlinked⟩

/-! ### Failure bits, candidates and the tip -/

/-- Failure bits, candidates and the tip `t`. -/
structure Ranking (verdict : BlockPtr → ConnectVerdict) (s : ChainState) (t : BlockPtr) :
    Prop where
  root : OneRoot s.tree
  work : ∀ b p, s.tree.pprev b = some p → s.tree.nChainWork p < s.tree.nChainWork b
  active : s.Active t
  tip_mem : t ∈ s.tree.mapBlockIndex
  tip_ok : s.Connectable verdict t
  tip_linked : (s.node t).nChainTx ≠ 0
  failedLine : ∀ b ∈ s.tree.mapBlockIndex, s.failed b = true →
    ∃ a ∈ s.line b, (s.node a).nStatus.failedValid = true
  sound : ∀ c ∈ s.setBlockIndexCandidates, c ∈ s.tree.mapBlockIndex ∧
    (s.node c).nChainTx ≠ 0 ∧ ¬ s.less c t = true
  complete : ∀ b ∈ s.tree.mapBlockIndex, (s.node b).nChainTx ≠ 0 → s.failed b = false →
    ¬ s.less b t = true → b ∈ s.setBlockIndexCandidates

/-- The invariant between calls. -/
def IndexOk (verdict : BlockPtr → ConnectVerdict) (s : ChainState) : Prop :=
  ∃ t, Linking [] s ∧ Ranking verdict s t

theorem not_less_of_mem_line
    (hw : ∀ b p, s.tree.pprev b = some p → s.tree.nChainWork p < s.tree.nChainWork b)
    {a b : BlockPtr} (h : a ∈ s.line b) : ¬ s.less b a = true := by
  have hle : a = b ∨ s.tree.nChainWork a < s.tree.nChainWork b := by
    revert h
    apply s.tree.graded.upward (P := fun b => a ∈ s.line b →
      a = b ∨ s.tree.nChainWork a < s.tree.nChainWork b) _ b
    intro b ih h
    rcases (mem_line_iff s.tree.graded).mp h with rfl | ⟨p, hp, hap⟩
    · exact .inl rfl
    · right
      have hlt := hw b p hp
      rcases ih p hp hap with rfl | hlt'
      · exact hlt
      · exact Nat.lt_trans hlt' hlt
  rcases hle with rfl | hlt
  · exact less_irrefl a
  · rw [less_iff]
    omega

/-! ### What `CheckBlockIndex` asserts -/

/-- The assertions of `CheckBlockIndex` about failure bits, candidates, `nChainTx` and
`mapBlocksUnlinked`, without pruning. -/
structure Consistent (s : ChainState) (tip : BlockPtr) : Prop where
  /-- A failure bit comes from an ancestor that is invalid. -/
  failed : ∀ b ∈ s.tree.mapBlockIndex, s.failed b = true →
    ∃ a ∈ s.line b, (s.node a).nStatus.failedValid = true
  /-- What could become the tip is a candidate. -/
  candidate : ∀ b ∈ s.tree.mapBlockIndex, ¬ s.less b tip = true →
    (∀ a ∈ s.line b, (s.node a).nStatus.haveData = true) →
    (∀ a ∈ s.line b, (s.node a).nStatus.failedValid = false) → b ∈ s.setBlockIndexCandidates
  /-- What is worse than the tip, or has an ancestor that was never received, is none. -/
  noCandidate : ∀ b ∈ s.setBlockIndexCandidates, ¬ s.less b tip = true ∧
    ∀ a ∈ s.line b, (s.node a).nTx ≠ 0
  nChainTx : ∀ b ∈ s.tree.mapBlockIndex,
    (s.node b).nChainTx ≠ 0 ↔ ∀ a ∈ s.line b, (s.node a).nTx ≠ 0
  /-- A block with data waits for an ancestor that was never received. -/
  unlinked : ∀ b ∈ s.tree.mapBlockIndex, (s.node b).nStatus.haveData = true →
    (∃ a ∈ s.line b, (s.node a).nTx = 0) →
    (∀ a ∈ s.line b, (s.node a).nStatus.failedValid = false) →
    ∃ p, s.tree.pprev b = some p ∧ (p, b) ∈ s.mapBlocksUnlinked

theorem IndexOk.consistent (h : IndexOk verdict s) : ∃ tip, s.tip = some tip ∧ s.Consistent tip := by
  obtain ⟨t, hl, hr⟩ := h
  have htx : ∀ b ∈ s.tree.mapBlockIndex,
      (∀ a ∈ s.line b, (s.node a).nStatus.haveData = true) → (s.node b).nChainTx ≠ 0 := by
    intro b hb hd
    apply (hl.nChainTx_iff hb).mpr
    intro a ha
    exact (hl.haveData a (BlockTree.mem_of_mem_line hb ha)).mp (hd a ha)
  refine ⟨t, hr.active.tip_eq, hr.failedLine, fun b hb hle hd hf => ?_, fun c hc => ?_,
    fun b hb => hl.nChainTx_iff hb, fun b hb hd hnever _ => ?_⟩
  · apply hr.complete b hb (htx b hb hd) _ hle
    rcases hfb : s.failed b with - | -
    · rfl
    · obtain ⟨a, ha, hv⟩ := hr.failedLine b hb hfb
      rw [hf a ha] at hv
      cases hv
  · obtain ⟨hidx, hlink, hle⟩ := hr.sound c hc
    exact ⟨hle, (hl.nChainTx_iff hidx).mp hlink⟩
  · obtain ⟨a, ha, h0⟩ := hnever
    have hlink : (s.node b).nChainTx = 0 := by
      by_contra hne
      exact (hl.nChainTx_iff hb).mp hne a ha h0
    rcases hl.complete b hb ((hl.haveData b hb).mp hd) hlink with hq | ⟨p, hp⟩
    · cases hq
    · exact ⟨p, (hl.unlinked p b hp).2.1, hp⟩

/-! ### The selection of the best chain -/

theorem Ranking.selecting (hl : Linking [] s) (h : Ranking verdict s t) :
    Selecting verdict (fun b => b ∈ s.tree.mapBlockIndex ∧ (s.node b).nChainTx ≠ 0) s t t := by
  have htip := (h.tip_ok.1 t (s.tree.mem_line_self t)).1
  refine ⟨h.root, h.active, h.tip_mem, h.tip_ok, h.tip_ok,
    h.complete t h.tip_mem h.tip_linked htip (less_irrefl t), fun c hc => ?_, fun b hb hu => ?_,
    fun b ⟨hb, hlink⟩ hf hle => h.complete b hb hlink hf hle⟩
  · obtain ⟨hidx, hlink, -⟩ := h.sound c hc
    refine ⟨hidx, fun a ha => ?_⟩
    exact (hl.haveData a (BlockTree.mem_of_mem_line hidx ha)).mpr
      ((hl.nChainTx_iff hidx).mp hlink a ha)
  · refine ⟨hb, (hl.nChainTx_iff hb).mpr fun a ha => ?_⟩
    exact (hl.haveData a (BlockTree.mem_of_mem_line hb ha)).mp (hu a ha).2

theorem Passed.sound {Wanted : BlockPtr → Prop} {floor' : BlockPtr}
    (hw : ∀ b p, s.tree.pprev b = some p → s.tree.nChainWork p < s.tree.nChainWork b)
    (hs : ∀ c ∈ s.setBlockIndexCandidates, ¬ s.less c t = true)
    (h : Passed verdict Wanted s s' t t' floor') :
    ∀ c ∈ s'.setBlockIndexCandidates, ¬ s'.less c t' = true := by
  intro c hc
  rw [h.evolves.less_eq]
  rcases h.pruned with hup | hall
  · exact not_less_trans (hs c (h.evolves.candidates c hc)) (not_less_of_mem_line hw hup)
  · exact hall c hc

theorem Ranking.evolve {Wanted : BlockPtr → Prop} {floor' : BlockPtr}
    (h : Ranking verdict s t) (hl : Linking [] s) (he : Evolves verdict s s')
    (hsel : Selecting verdict Wanted s' t' floor')
    (hs : ∀ c ∈ s'.setBlockIndexCandidates, ¬ s'.less c t' = true)
    (hc : ∀ b ∈ s.tree.mapBlockIndex, (s.node b).nChainTx ≠ 0 → s'.failed b = false →
      ¬ s.less b t' = true → b ∈ s'.setBlockIndexCandidates) :
    Ranking verdict s' t' where
  root := hsel.root
  work := he.tree ▸ h.work
  active := hsel.active
  tip_mem := hsel.tip_mem
  tip_ok := hsel.tip_ok
  tip_linked := by
    have hl' := hl.same he.same
    apply (hl'.nChainTx_iff hsel.tip_mem).mpr
    intro a ha
    exact (hl'.haveData a (BlockTree.mem_of_mem_line hsel.tip_mem ha)).mp (hsel.tip_ok.1 a ha).2
  failedLine := by
    intro b hb hf
    rw [he.tree] at hb
    rw [he.line_eq]
    -- an old bit has an old reason
    have hold : ∀ a ∈ s.line b, s.failed a = true →
        ∃ d ∈ s.line b, (s'.node d).nStatus.failedValid = true := by
      intro a ha hfa
      obtain ⟨d, hd, hv⟩ := h.failedLine a (BlockTree.mem_of_mem_line hb ha) hfa
      exact ⟨d, BlockTree.mem_line_trans hd ha, (he.entry d).failedValid hv⟩
    rcases failed_iff.mp hf with hv | hc
    · exact ⟨b, s.tree.mem_line_self b, hv⟩
    · rcases he.newChild b hc with hc' | ⟨a, ha, hfa | hv⟩
      · exact hold b (s.tree.mem_line_self b) (failed_iff.mpr (.inr hc'))
      · exact hold a ha hfa
      · exact ⟨a, ha, hv⟩
  sound := by
    intro c hcs
    obtain ⟨hidx, hlink, -⟩ := h.sound c (he.candidates c hcs)
    exact ⟨he.tree ▸ hidx, by rwa [(he.entry c).nChainTx], hs c hcs⟩
  complete := by
    intro b hb hlink hf hle
    rw [he.tree] at hb
    rw [(he.entry b).nChainTx] at hlink
    rw [he.less_eq] at hle
    exact hc b hb hlink hf hle

/-- A pass that falls back behind the tip, because `c` does not connect, finds the
candidates that it needs: all linked blocks without failure bit that are no worse than the
last block before `c`. -/
def FallsBackSafely (verdict : BlockPtr → ConnectVerdict) (s : ChainState) : Prop :=
  ∀ m c p, s.BestUsable m → c ∈ s.line m → verdict c ≠ .valid → s.tree.pprev c = some p →
    (∀ a ∈ s.line p, verdict a = .valid) →
    (∀ t, s.tip = some t → s.tree.nChainWork p ≤ s.tree.nChainWork t) →
    ∀ b ∈ s.tree.mapBlockIndex, (s.node b).nChainTx ≠ 0 → s.failed b = false →
      ¬ (b = c ∧ verdict c = .invalid false) → ¬ s.less b p = true →
      b ∈ s.setBlockIndexCandidates

theorem IndexOk.pass (h : IndexOk verdict s) (hsafe : FallsBackSafely verdict s) :
    IndexOk verdict (s.activatePass verdict).2 := by
  obtain ⟨t, hl, hr⟩ := h
  obtain ⟨p, s', t', floor', hpass, hp, hend⟩ := activatePass_spec (hr.selecting hl)
  rw [hpass]
  have hev := hp.evolves
  have hsound := hp.sound hr.work fun c hc => (hr.sound c hc).2.2
  -- a candidate that is lost has failed or is worse than the new tip
  have hkept : ∀ b ∈ s.setBlockIndexCandidates, s'.failed b = false → ¬ s.less b t' = true →
      b ∈ s'.setBlockIndexCandidates := by
    intro b hb hf hle
    rcases hp.removed b hb with hc | hf' | ⟨a, ha, hlt⟩
    · exact hc
    · rw [hf] at hf'
      cases hf'
    · exact absurd hlt (not_less_trans hle (not_less_of_mem_line hr.work ha))
  refine ⟨t', hl.same hev.same, hr.evolve hl hev hp.selecting hsound ?_⟩
  intro b hb hlink hf hle
  -- with more work than before the old candidates do
  have hmore : s.tree.nChainWork t < s.tree.nChainWork t' → b ∈ s'.setBlockIndexCandidates := by
    intro hw
    have hlt : s.less t t' = true := less_iff.mpr (.inl hw)
    apply hkept b _ hf hle
    exact hr.complete b hb hlink (hev.not_failed hf) (not_less_trans hle (not_less_of_less hlt))
  -- without, they have to be there
  have hfall : ∀ m c, s.BestUsable m → c ∈ s'.line m → s'.tree.pprev c = some t' →
      verdict c ≠ .valid → ¬ (b = c ∧ verdict c = .invalid false) →
      b ∈ s'.setBlockIndexCandidates := by
    intro m c hm hc hpc hv hne
    by_cases hw : s.tree.nChainWork t < s.tree.nChainWork t'
    · exact hmore hw
    · apply hkept b _ hf hle
      rw [hev.line_eq] at hc
      rw [hev.tree] at hpc
      refine hsafe m c t' hm hc hv hpc (fun a ha => ?_) (fun t₁ ht₁ => ?_) b hb hlink
        (hev.not_failed hf) hne hle
      · apply hp.selecting.tip_ok.2
        rw [hev.line_eq]
        exact ha
      · rw [hr.active.tip_eq] at ht₁
        obtain rfl := Option.some.inj ht₁
        omega
  rcases p with - | - | -
  · apply hp.selecting.complete b ⟨hb, hlink⟩ hf
    rw [← hev.less_eq] at hle
    exact not_less_trans hle (hend floor' hp.selecting.floor_mem)
  · rcases hend with hw | ⟨m, hm, c, hc, hpc, corruptionPossible, hv, hmark⟩
    · rw [hev.tree] at hw
      exact hmore hw
    · refine hfall m c hm hc hpc (by rw [hv]; simp) ?_
      rintro ⟨rfl, hv'⟩
      rw [hv] at hv'
      rw [failed_iff.mpr (.inl (hmark (ConnectVerdict.invalid.inj hv')))] at hf
      cases hf
  · obtain ⟨m, hm, c, hc, hpc, hv⟩ := hend
    refine hfall m c hm hc hpc (by rw [hv]; simp) ?_
    rintro ⟨-, hv'⟩
    rw [hv] at hv'
    cases hv'

theorem passes_sound {Wanted : BlockPtr → Prop} {floor : BlockPtr} {es : List Unit}
    (hrun : Run (Pass verdict) s es s') (h : Selecting verdict Wanted s t floor)
    (hw : ∀ b p, s.tree.pprev b = some p → s.tree.nChainWork p < s.tree.nChainWork b)
    (hs : ∀ c ∈ s.setBlockIndexCandidates, ¬ s.less c t = true) :
    ∃ t' floor', Selecting verdict Wanted s' t' floor' ∧
      ∀ c ∈ s'.setBlockIndexCandidates, ¬ s'.less c t' = true := by
  have hinv := hrun.invariant (I := fun s' =>
    (∀ b p, s'.tree.pprev b = some p → s'.tree.nChainWork p < s'.tree.nChainWork b) ∧
    ∃ t' floor', Selecting verdict Wanted s' t' floor' ∧
      ∀ c ∈ s'.setBlockIndexCandidates, ¬ s'.less c t' = true) ?_ ⟨hw, t, floor, h, hs⟩
  · exact hinv.2
  · rintro s₁ _ s₂ ⟨hw₁, t₁, floor₁, h₁, hs₁⟩ hstep
    obtain ⟨p, s', t', floor', hr, hp, -⟩ := activatePass_spec h₁
    obtain rfl : s' = s₂ := by
      rw [← show (s₁.activatePass verdict).2 = s₂ from hstep, hr]
    exact ⟨hp.evolves.tree ▸ hw₁, t', floor', hp.selecting, hp.sound hw₁ hs₁⟩

theorem IndexOk.activate (h : IndexOk verdict s) (hd : Decided verdict) :
    ∃ s', s.activateBestChain verdict s.passBound = some (true, s') ∧ IndexOk verdict s' := by
  obtain ⟨t, hl, hr⟩ := h
  have hsel := hr.selecting hl
  obtain ⟨s', t', floor', hres, hev, hsel', hmax⟩ :=
    activateBestChain_selects hd s.passBound s t t hsel (measure_lt_passBound s t)
  obtain ⟨es, hrun⟩ := activateBestChain_run hres
  obtain ⟨t₁, floor₁, hsel₁, hsound⟩ :=
    passes_sound hrun hsel hr.work fun c hc => (hr.sound c hc).2.2
  obtain rfl : t₁ = t' := by
    have htip := hsel'.active.tip_eq
    rw [hsel₁.active.tip_eq] at htip
    exact Option.some.inj htip
  refine ⟨s', hres, t₁, hl.same hev.same, hr.evolve hl hev hsel' hsound ?_⟩
  intro b hb hlink hf hle
  apply hsel'.complete b ⟨hb, hlink⟩ hf
  rw [← hev.less_eq] at hle
  exact not_less_trans hle (hmax floor' hsel'.floor_mem)

end ChainState

end Stonecoin
