/-
What `ActivateBestChainStep` does to a state in which the best chain is being selected.

The step goes back to the fork and then connects blocks on the way to the best candidate.
`Connected` collects what holds after any number of connected blocks, and `Exit` says where
the step was left.
-/
import Stonecoin.BestChain

namespace Stonecoin

namespace ChainState

open ParentTree

variable {verdict : BlockPtr → ConnectVerdict} {Wanted : BlockPtr → Prop}
  {s s' s'' : ChainState} {t t' t'' m b floor floor' : BlockPtr}

/-! ### Moving the tip -/

def withTip (s : ChainState) (b : BlockPtr) : ChainState :=
  { s with vChain := (s.line b).reverse.map some }

theorem withTip_active (s : ChainState) (b : BlockPtr) : (s.withTip b).Active b := rfl

theorem withTip_evolves (s : ChainState) (b : BlockPtr) : Evolves verdict s (s.withTip b) :=
  .of_node rfl rfl rfl rfl fun _ h => h

theorem Active.withTip_eq (h : s.Active t) : s.withTip t = s := by
  show { s with vChain := (s.line t).reverse.map some } = s
  rw [← show s.vChain = (s.line t).reverse.map some from h]

theorem Active.setTip_eq (h : s.Active t) (b : BlockPtr) : s.setTip (some b) = s.withTip b := by
  have hv : (s.setTip (some b)).vChain = (s.line b).reverse.map some := h.setTip b
  show { s with vChain := (s.setTip (some b)).vChain } = s.withTip b
  rw [hv]
  rfl

theorem disconnectTo_eq {f : BlockPtr} : ∀ (fuel : ℕ) (s : ChainState) (t : BlockPtr),
    s.Active t → f ∈ s.line t → s.tree.nHeight t ≤ s.tree.nHeight f + fuel →
      disconnectTo (some f) fuel s = s.withTip f := by
  intro fuel
  induction fuel with
  | zero =>
    intro s t h hf hle
    have hge := height_le_of_mem s.tree.graded hf
    obtain rfl := eq_of_mem_of_height s.tree.graded hf (by omega)
    exact h.withTip_eq.symm
  | succ fuel ih =>
    intro s t h hf hle
    simp only [disconnectTo]
    rw [h.tip_eq]
    by_cases hft : f = t
    · rw [if_neg (by simp [hft]), hft, h.withTip_eq]
    · rw [if_pos ⟨rfl, fun he => hft (Option.some.inj he).symm⟩]
      rcases (mem_line_iff s.tree.graded).mp hf with he | ⟨p, hp, hfp⟩
      · exact absurd he hft
      have hdisc : s.disconnectTip = s.withTip p := by
        unfold disconnectTip
        rw [h.tip_eq]
        dsimp only
        rw [hp]
        exact h.setTip_eq p
      rw [hdisc]
      have hc := s.tree.graded.child t p hp
      exact ih (s.withTip p) p (withTip_active s p) hfp (by
        show s.tree.nHeight p ≤ s.tree.nHeight f + fuel
        omega)

theorem Selecting.withTip {f : BlockPtr} (h : Selecting verdict Wanted s t floor)
    (hf : f ∈ s.line t) : Selecting verdict Wanted (s.withTip f) f floor :=
  h.evolve (withTip_evolves s f) (withTip_active s f)
    (BlockTree.mem_of_mem_line h.tip_mem hf) (h.tip_ok.of_mem hf) h.floor_ok h.floor_mem
    (less_irrefl floor) fun _ hc => .inl hc

/-! ### One block -/

structure Connected (verdict : BlockPtr → ConnectVerdict) (Wanted : BlockPtr → Prop)
    (s s' : ChainState) (m t t' floor' : BlockPtr) : Prop where
  evolves : Evolves verdict s s'
  selecting : Selecting verdict Wanted s' t' floor'
  tip_line : t' ∈ s.line m
  rising : t ∈ s.line t'
  removed : ∀ c ∈ s.setBlockIndexCandidates, c ∈ s'.setBlockIndexCandidates ∨
    s'.failed c = true ∨ ∃ a ∈ s.line t', s.less c a = true
  pruned : t' = t ∨ ∀ c ∈ s'.setBlockIndexCandidates, ¬ s.less c t' = true

theorem Connected.refl (h : Selecting verdict Wanted s t floor) (ht : t ∈ s.line m) :
    Connected verdict Wanted s s m t t floor :=
  ⟨.refl s, h, ht, s.tree.mem_line_self t, fun _ hc => .inl hc, .inl rfl⟩

theorem Connected.trans (h : Connected verdict Wanted s s' m t t' floor)
    (h' : Connected verdict Wanted s' s'' m t' t'' floor') :
    Connected verdict Wanted s s'' m t t'' floor' where
  evolves := h.evolves.trans h'.evolves
  selecting := h'.selecting
  tip_line := by
    have ht := h'.tip_line
    rwa [h.evolves.line_eq] at ht
  rising := by
    have ht := h'.rising
    rw [h.evolves.line_eq] at ht
    exact BlockTree.mem_line_trans h.rising ht
  removed := by
    have hup := h'.rising
    rw [h.evolves.line_eq] at hup
    intro c hc
    rcases h.removed c hc with hc' | hf | ⟨a, ha, hl⟩
    · rcases h'.removed c hc' with hc'' | hf | ⟨a, ha, hl⟩
      · exact .inl hc''
      · exact .inr (.inl hf)
      · rw [h.evolves.line_eq] at ha
        rw [h.evolves.less_eq] at hl
        exact .inr (.inr ⟨a, ha, hl⟩)
    · exact .inr (.inl (h'.evolves.failed_mono hf))
    · exact .inr (.inr ⟨a, BlockTree.mem_line_trans ha hup, hl⟩)
  pruned := by
    rcases h'.pruned with rfl | hp
    · exact h.pruned.imp_right fun hp c hc => hp c (h'.evolves.candidates c hc)
    · right
      intro c hc
      rw [← h.evolves.less_eq]
      exact hp c hc

structure Goal (s : ChainState) (m : BlockPtr) : Prop where
  mem : m ∈ s.setBlockIndexCandidates
  best : ∀ c ∈ s.setBlockIndexCandidates, ¬ s.less m c = true
  usable : s.Usable m

/-- **No block on the way to the best candidate is better than it**, even where such a block
is worse than the floor and so may have been pruned. -/
theorem Goal.not_less (hg : s.Goal m) (h : Selecting verdict Wanted s t floor)
    (hb : b ∈ s.line m) : ¬ s.less m b = true := by
  have hu := hg.usable.of_mem hb
  have hidx := BlockTree.mem_of_mem_line (h.candidate m hg.mem).1 hb
  rcases hl : s.less b floor with - | -
  · apply hg.best b
    apply h.complete b (h.wanted b hidx hu) (hu b (s.tree.mem_line_self b)).1
    rw [hl]
    exact Bool.false_ne_true
  · intro hmb
    exact hg.best floor h.floor_mem (less_trans hmb hl)

theorem connectedStatus_failed (st : BlockStatus) :
    (s.connectedStatus b st).failed = st.failed := by
  unfold connectedStatus BlockStatus.raiseValidity
  repeat' split
  all_goals rfl

variable (verdict) in
theorem connectTip_entry (hd : (s.node b).nStatus.haveData = true) :
    Evolves verdict s (s.modifyStatus b (s.connectedStatus b)) ∧
      ∀ c, (s.modifyStatus b (s.connectedStatus b)).failed c = s.failed c := by
  have hfields : ∀ st : BlockStatus, (s.connectedStatus b st).haveData = st.haveData ∧
      (s.connectedStatus b st).failedValid = st.failedValid ∧
      (s.connectedStatus b st).failedChild = st.failedChild ∧
      st.valid ≤ (s.connectedStatus b st).valid := by
    intro st
    unfold connectedStatus BlockStatus.raiseValidity
    repeat' split
    all_goals simp only [and_self, true_and, Nat.le_refl]
    all_goals omega
  obtain ⟨h₁, h₂, h₃, h₄⟩ := hfields (s.node b).nStatus
  refine ⟨evolves_modifyStatus b _ ?_ (fun h => .inl (h₂ ▸ h)) (fun h => .inl (h₃ ▸ h)), ?_⟩
  · exact ⟨rfl, rfl, rfl, h₁, fun _ => .inr hd, fun h => h₂.trans h, fun h => h₃.trans h, h₄,
      .inr hd⟩
  · intro c
    show ((Function.update s.node b _ c).nStatus).failed = ((s.node c).nStatus).failed
    rw [Function.update_apply]
    split
    next he =>
      subst he
      exact connectedStatus_failed _
    next => rfl

theorem connectTip_prune (h : s.Active t) (hv : verdict b = .valid)
    (hd : (s.node b).nStatus.haveData = true) :
    Evolves verdict s (s.connectTip verdict b).pruneBlockIndexCandidates ∧
      (s.connectTip verdict b).pruneBlockIndexCandidates.Active b ∧
      (∀ c, (s.connectTip verdict b).pruneBlockIndexCandidates.failed c = s.failed c) ∧
      ∀ c, c ∈ (s.connectTip verdict b).pruneBlockIndexCandidates.setBlockIndexCandidates ↔
        c ∈ s.setBlockIndexCandidates ∧ ¬ s.less c b = true := by
  obtain ⟨hev, hfail⟩ := connectTip_entry verdict hd
  have hconn : s.connectTip verdict b
      = (s.modifyStatus b (s.connectedStatus b)).withTip b := by
    unfold connectTip
    rw [hv]
    exact Active.setTip_eq (s := s.modifyStatus b (s.connectedStatus b)) h b
  have hless : ∀ c, ((s.modifyStatus b (s.connectedStatus b)).withTip b).less c b
      = s.less c b := fun c => hev.less_eq c b
  rw [hconn]
  unfold pruneBlockIndexCandidates
  rw [(withTip_active _ b).tip_eq]
  refine ⟨hev.trans (.of_node rfl rfl rfl rfl fun c hc => List.mem_of_mem_filter hc),
    withTip_active _ b, hfail, fun c => ?_⟩
  rw [List.mem_filter, hless]
  simp [withTip, modifyStatus, modify]

theorem connectTip_valid (h : Selecting verdict Wanted s t floor) (hg : s.Goal m)
    (hv : verdict b = .valid) (hp : s.tree.pprev b = some t) (hb : b ∈ s.line m) :
    ∃ floor', Connected verdict Wanted s (s.connectTip verdict b).pruneBlockIndexCandidates
        m t b floor' ∧
      (s.connectTip verdict b).pruneBlockIndexCandidates.Goal m := by
  have hu := hg.usable.of_mem hb
  have hself := s.tree.mem_line_self b
  have hidx := BlockTree.mem_of_mem_line (h.candidate m hg.mem).1 hb
  obtain ⟨hev, hactive, hfail, hmem⟩ := connectTip_prune h.active hv (hu b hself).2
  have hok : s.Connectable verdict b := by
    refine ⟨hu, fun a ha => ?_⟩
    rcases (mem_line_iff s.tree.graded).mp ha with rfl | ⟨p, hp', hap⟩
    · exact hv
    · rw [hp] at hp'
      obtain rfl := Option.some.inj hp'
      exact h.tip_ok.2 a hap
  have hremoved : ∀ c ∈ s.setBlockIndexCandidates,
      c ∈ (s.connectTip verdict b).pruneBlockIndexCandidates.setBlockIndexCandidates ∨
        s.less c b = true := by
    intro c hc
    by_cases hl : s.less c b = true
    · exact .inr hl
    · exact .inl ((hmem c).mpr ⟨hc, hl⟩)
  -- the new floor
  obtain ⟨floor', hfloor⟩ : ∃ floor', Selecting verdict Wanted
      (s.connectTip verdict b).pruneBlockIndexCandidates b floor' := by
    by_cases hl : s.less floor b = true
    · have hb' : b ∈ s.setBlockIndexCandidates :=
        h.complete b (h.wanted b hidx hu) (hu b hself).1 (not_less_of_less hl)
      exact ⟨b, h.evolve hev hactive hidx hok hok ((hmem b).mpr ⟨hb', less_irrefl b⟩)
        (not_less_of_less hl) fun c hc => (hremoved c hc).imp_right .inr⟩
    · refine ⟨floor, h.evolve hev hactive hidx hok h.floor_ok
        ((hmem floor).mpr ⟨h.floor_mem, hl⟩) (less_irrefl floor) fun c hc => ?_⟩
      refine (hremoved c hc).imp_right fun hcb => .inr ?_
      by_contra hcf
      exact not_less_trans hcf hl hcb
  refine ⟨floor', ⟨hev, hfloor, hb, parent_mem_line s.tree.graded hp, fun c hc => ?_, ?_⟩, ?_⟩
  · exact (hremoved c hc).imp_right fun hcb => .inr ⟨b, hself, hcb⟩
  · exact .inr fun c hc => ((hmem c).mp hc).2
  · refine ⟨(hmem m).mpr ⟨hg.mem, hg.not_less h hb⟩, fun c hc => ?_, fun a ha => ?_⟩
    · rw [hev.less_eq]
      exact hg.best c ((hmem c).mp hc).1
    · rw [hev.line_eq] at ha
      obtain ⟨hf, hd⟩ := hg.usable a ha
      exact ⟨(hfail a).trans hf, (hev.entry a).haveData.trans hd⟩

theorem connectTip_invalid {corruptionPossible : Bool}
    (h : Selecting verdict Wanted s t floor) (hv : verdict b = .invalid corruptionPossible)
    (ht : t ∈ s.line m) :
    Connected verdict Wanted s (s.connectTip verdict b) m t t floor ∧
      (corruptionPossible = false →
        ((s.connectTip verdict b).node b).nStatus.failedValid = true) := by
  cases corruptionPossible with
  | true =>
    have hconn : s.connectTip verdict b = s := by
      unfold connectTip
      rw [hv]
    rw [hconn]
    exact ⟨.refl h ht, fun he => by cases he⟩
  | false =>
    have hconn : s.connectTip verdict b
        = (s.modifyStatus b fun st => { st with failedValid := true }).eraseCandidate b := by
      unfold connectTip
      rw [hv]
    rw [hconn]
    have hmark : ((s.modifyStatus b fun st => { st with failedValid := true }).node b
        ).nStatus.failedValid = true := by
      show ((Function.update s.node b _ b).nStatus).failedValid = true
      rw [Function.update_self]
    have hev : Evolves verdict s
        ((s.modifyStatus b fun st => { st with failedValid := true }).eraseCandidate b) := by
      have hmod : Evolves verdict s
          (s.modifyStatus b fun st => { st with failedValid := true }) := by
        refine evolves_modifyStatus b _ ?_ (fun _ => .inr hv) .inl
        exact ⟨rfl, rfl, rfl, rfl, .inl, fun _ => rfl, id, Nat.le_refl _, .inl rfl⟩
      exact hmod.trans (.of_node rfl rfl rfl rfl fun c hc => List.mem_of_mem_filter hc)
    have hne : floor ≠ b := by
      rintro rfl
      have hok := h.floor_ok.2 floor (s.tree.mem_line_self floor)
      rw [hv] at hok
      cases hok
    have hrem : ∀ c ∈ s.setBlockIndexCandidates,
        c ∈ ((s.modifyStatus b fun st => { st with failedValid := true }).eraseCandidate b
          ).setBlockIndexCandidates ∨
        ((s.modifyStatus b fun st => { st with failedValid := true }).eraseCandidate b
          ).failed c = true := by
      intro c hc
      by_cases hcb : c = b
      · subst hcb
        exact .inr (failed_iff.mpr (.inl hmark))
      · exact .inl (List.mem_filter.mpr ⟨hc, by simpa using hcb⟩)
    have hsel := h.evolve hev h.active h.tip_mem h.tip_ok h.floor_ok
      (List.mem_filter.mpr ⟨h.floor_mem, by simpa using hne⟩) (less_irrefl floor)
      fun c hc => (hrem c hc).imp_right .inl
    exact ⟨⟨hev, hsel, ht, s.tree.mem_line_self t, fun c hc => (hrem c hc).imp_right .inl,
      .inl rfl⟩, fun _ => hmark⟩

/-! ### The loops -/

/-- The step was left because a block on the way to `m` did not connect. -/
def Stuck (verdict : BlockPtr → ConnectVerdict) (s' : ChainState) (m t' : BlockPtr) : Prop :=
  ∃ c ∈ s'.line m, s'.tree.pprev c = some t' ∧ ∃ corruptionPossible,
    verdict c = .invalid corruptionPossible ∧
      (corruptionPossible = false → (s'.node c).nStatus.failedValid = true)

/-- How a loop on the way to `m` is left: at `goal`, with more work than `old`, or before a
block that does not connect. -/
def Exit (verdict : BlockPtr → ConnectVerdict) (m goal old : BlockPtr) (s' : ChainState)
    (t' : BlockPtr) : StepExit → Prop
  | .more => t' = goal ∧ s'.Goal m
  | .stop => s'.tree.nChainWork old < s'.tree.nChainWork t' ∨ Stuck verdict s' m t'
  | .fail => ∃ c ∈ s'.line m, s'.tree.pprev c = some t' ∧ verdict c = .error

theorem connectBlocks_spec (old : BlockPtr) : ∀ (l : List BlockPtr) (s : ChainState)
    (t floor : BlockPtr), Selecting verdict Wanted s t floor → s.Goal m →
      IsPath s.tree.pprev t l → pathEnd t l ∈ s.line m →
      ∃ e s' t' floor', connectBlocks verdict (some old) l s = (e, s') ∧
        Connected verdict Wanted s s' m t t' floor' ∧
        Exit verdict m (pathEnd t l) old s' t' e := by
  intro l
  induction l with
  | nil =>
    intro s t floor h hg _ hend
    exact ⟨.more, s, t, floor, rfl, .refl h hend, rfl, hg⟩
  | cons b l ih =>
    intro s t floor h hg hpath hend
    obtain ⟨hp, hpath⟩ := hpath
    have hb : b ∈ s.line m := BlockTree.mem_line_trans (hpath.mem_line s.tree.graded) hend
    have ht : t ∈ s.line m :=
      BlockTree.mem_line_trans (parent_mem_line s.tree.graded hp) hb
    simp only [connectBlocks]
    rcases hv : verdict b with - | corruptionPossible | -
    · obtain ⟨floor₁, hc, hg₁⟩ := connectTip_valid h hg hv hp hb
      dsimp only
      generalize (s.connectTip verdict b).pruneBlockIndexCandidates = s₁ at hc hg₁ ⊢
      have himp : s₁.improves (some old)
          = decide (s₁.tree.nChainWork old < s₁.tree.nChainWork b) := by
        unfold improves
        rw [hc.selecting.active.tip_eq]
      by_cases hw : s₁.tree.nChainWork old < s₁.tree.nChainWork b
      · rw [himp, if_pos (by simpa using hw)]
        exact ⟨.stop, s₁, b, floor₁, rfl, hc, .inl hw⟩
      · rw [himp, if_neg (by simpa using hw)]
        obtain ⟨e, s', t', floor', hr, hc', he⟩ := ih s₁ b floor₁ hc.selecting hg₁
          (by rw [hc.evolves.tree]; exact hpath) (by rw [hc.evolves.line_eq]; exact hend)
        exact ⟨e, s', t', floor', hr, hc.trans hc', he⟩
    · obtain ⟨hc, hmark⟩ := connectTip_invalid h hv ht
      refine ⟨.stop, _, t, floor, rfl, hc, .inr ⟨b, ?_, ?_, corruptionPossible, hv, hmark⟩⟩
      · rw [hc.evolves.line_eq]
        exact hb
      · rw [hc.evolves.tree]
        exact hp
    · have hconn : s.connectTip verdict b = s := by
        unfold connectTip
        rw [hv]
      dsimp only
      rw [hconn]
      exact ⟨.fail, s, t, floor, rfl, .refl h ht, b, hb, hp, hv⟩

theorem connectBatches_spec (old : BlockPtr) : ∀ (fuel : ℕ) (s : ChainState)
    (t floor : BlockPtr), Selecting verdict Wanted s t floor → s.Goal m → t ∈ s.line m →
      s.tree.nHeight m + 1 ≤ fuel + s.tree.nHeight t →
      ∃ e s' t' floor',
        connectBatches verdict (some old) m fuel (s.tree.nHeight t + 1) s = (e, s') ∧
        Connected verdict Wanted s s' m t t' floor' ∧ Exit verdict m m old s' t' e := by
  intro fuel
  induction fuel with
  | zero =>
    intro s t floor h hg ht hfuel
    have hle := height_le_of_mem s.tree.graded ht
    omega
  | succ fuel ih =>
    intro s t floor h hg ht hfuel
    have hle := height_le_of_mem s.tree.graded ht
    simp only [connectBatches]
    by_cases hdone : s.tree.nHeight t + 1 = s.tree.nHeight m + 1
    · rw [if_pos hdone]
      obtain rfl := eq_of_mem_of_height s.tree.graded ht (by omega)
      exact ⟨.more, s, t, floor, rfl, .refl h ht, rfl, hg⟩
    · rw [if_neg hdone]
      -- the batch ends at an ancestor `q` of `m`
      generalize hn : min (s.tree.nHeight t + 1 + 32) (s.tree.nHeight m + 1) = nTarget
      have hq : ∃ q ∈ s.line m, s.tree.nHeight q = nTarget - 1 :=
        exists_mem_line s.tree.graded (by omega)
      obtain ⟨q, hq, hqh⟩ := hq
      rw [BlockTree.getAncestor_eq_some.mpr ⟨hq, hqh⟩]
      have htq : t ∈ s.line q := mem_line_of_le s.tree.graded ht hq (by omega)
      obtain ⟨hpath, hend⟩ := path_segment s.tree.graded htq
      obtain ⟨e, s₁, t₁, floor₁, hr, hc, he⟩ := connectBlocks_spec old _ s t floor h hg
        hpath (by rw [hend]; exact hq)
      rw [hend] at he
      dsimp only
      rw [hr]
      rcases e with - | - | -
      · obtain ⟨rfl, hg₁⟩ := he
        have htree := hc.evolves.tree
        obtain ⟨e, s', t', floor', hr', hc', he'⟩ := ih s₁ t₁ floor₁ hc.selecting hg₁
          (by rw [hc.evolves.line_eq]; exact hq) (by rw [htree]; omega)
        refine ⟨e, s', t', floor', ?_, hc.trans hc', he'⟩
        rw [htree, hqh, show nTarget - 1 + 1 = nTarget by omega] at hr'
        exact hr'
      · exact ⟨.stop, s₁, t₁, floor₁, rfl, hc, he⟩
      · exact ⟨.fail, s₁, t₁, floor₁, rfl, hc, he⟩

theorem activateBestChainStep_spec (h : Selecting verdict Wanted s t floor) (hg : s.Goal m) :
    ∃ f e s' t' floor', f ∈ s.line t ∧ f ∈ s.line m ∧
      s.activateBestChainStep verdict m = (decide (e ≠ StepExit.fail), s') ∧
      Connected verdict Wanted (s.withTip f) s' m f t' floor' ∧ Exit verdict m m t s' t' e := by
  obtain ⟨r, hroot⟩ := h.root
  obtain ⟨f, hfm, hfork, hft, -⟩ := h.active.findFork
    ⟨r, hroot m (h.candidate m hg.mem).1, hroot t h.tip_mem⟩
  have hle := height_le_of_mem s.tree.graded hft
  have hdisc : disconnectTo (some f) s.vChain.length s = s.withTip f := by
    apply disconnectTo_eq _ s t h.active hft
    rw [h.active.length_eq]
    omega
  have hg' : (s.withTip f).Goal m := ⟨hg.mem, hg.best, hg.usable⟩
  obtain ⟨e, s', t', floor', hr, hc, he⟩ := connectBatches_spec t
    (s.tree.nHeight m + 1) (s.withTip f) f floor (h.withTip hft) hg' hfm (by
      show s.tree.nHeight m + 1 ≤ s.tree.nHeight m + 1 + s.tree.nHeight f
      omega)
  refine ⟨f, e, s', t', floor', hft, hfm, ?_, hc, he⟩
  unfold activateBestChainStep
  rw [hfork, h.active.tip_eq]
  dsimp only
  rw [hdisc, show connectBatches verdict (some t) m ((s.withTip f).tree.nHeight m + 1)
    ((s.withTip f).tree.nHeight f + 1) (s.withTip f) = (e, s') from hr]
  rcases e with - | - | - <;> rfl

end ChainState

end Stonecoin
