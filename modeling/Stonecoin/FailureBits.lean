/-
`InvalidateBlock` and `ReconsiderBlock` keep the invariant of the block index.

While `InvalidateBlock` goes down the active chain, the block itself is still on it;
`Retreating` is the invariant of that loop.  `ReconsiderBlock` keeps the invariant only
under a condition: it also frees the ancestors of the block, but then looks neither at the
other descendants of these, nor at whether the ancestors should be candidates.
-/
import Stonecoin.IndexInvariant

namespace Stonecoin

namespace ChainState

open ParentTree

variable {verdict : BlockPtr → ConnectVerdict} {s s' s'' : ChainState} {t t' b p : BlockPtr}
  {queue : List BlockPtr}

/-! ### Changes of bits -/

theorem SameLinks.trans (h : SameLinks s s') (h' : SameLinks s' s'') : SameLinks s s'' where
  tree := h'.tree.trans h.tree
  nTx := fun b => (h'.nTx b).trans (h.nTx b)
  nChainTx := fun b => (h'.nChainTx b).trans (h.nChainTx b)
  haveData := fun b => (h'.haveData b).trans (h.haveData b)
  valid := fun b => Nat.le_trans (h.valid b) (h'.valid b)
  unlinked := h'.unlinked.trans h.unlinked

theorem modifyStatus_node_self (s : ChainState) (b : BlockPtr) (f : BlockStatus → BlockStatus) :
    (s.modifyStatus b f).node b = { s.node b with nStatus := f (s.node b).nStatus } := by
  show Function.update s.node b _ b = _
  rw [Function.update_self]

theorem modifyStatus_node {f : BlockStatus → BlockStatus} {c : BlockPtr} (hc : c ≠ b) :
    (s.modifyStatus b f).node c = s.node c := Function.update_of_ne hc _ _

theorem modifyStatus_less (s : ChainState) (b : BlockPtr) (f : BlockStatus → BlockStatus)
    (a c : BlockPtr) : (s.modifyStatus b f).less a c = s.less a c := by
  have hseq : ∀ c, ((s.modifyStatus b f).node c).nSequenceId = (s.node c).nSequenceId := by
    intro c
    rcases eq_or_ne c b with rfl | hcb
    · rw [modifyStatus_node_self]
    · rw [modifyStatus_node hcb]
  unfold less
  rw [hseq, hseq]
  rfl

theorem modifyStatus_same (b : BlockPtr) {f : BlockStatus → BlockStatus}
    (hd : ∀ st, (f st).haveData = st.haveData) (hv : ∀ st, (f st).valid = st.valid) :
    SameLinks s (s.modifyStatus b f) := by
  refine ⟨rfl, fun c => ?_, fun c => ?_, fun c => ?_, fun c => ?_, rfl⟩
  all_goals rcases eq_or_ne c b with rfl | hcb
  · rw [modifyStatus_node_self]
  · rw [modifyStatus_node hcb]
  · rw [modifyStatus_node_self]
  · rw [modifyStatus_node hcb]
  · rw [modifyStatus_node_self]
    exact hd _
  · rw [modifyStatus_node hcb]
  · rw [modifyStatus_node_self]
    exact Nat.le_of_eq (hv _).symm
  · exact Nat.le_of_eq (by rw [modifyStatus_node hcb])

/-! ### `InvalidateBlock` -/

/-- While `b` is being disconnected: the tip is `t`, and only `b` itself may be failed on
its line. -/
structure Retreating (verdict : BlockPtr → ConnectVerdict) (s : ChainState) (b t : BlockPtr) :
    Prop where
  root : OneRoot s.tree
  work : ∀ b p, s.tree.pprev b = some p → s.tree.nChainWork p < s.tree.nChainWork b
  active : s.Active t
  tip_mem : t ∈ s.tree.mapBlockIndex
  tip_ok : ∀ a ∈ s.line t, (a ≠ b → s.failed a = false) ∧
    (s.node a).nStatus.haveData = true ∧ verdict a = .valid
  tip_linked : (s.node t).nChainTx ≠ 0
  marked : (s.node b).nStatus.failedValid = true
  failedLine : ∀ c ∈ s.tree.mapBlockIndex, s.failed c = true →
    ∃ a ∈ s.line c, (s.node a).nStatus.failedValid = true
  sound : ∀ c ∈ s.setBlockIndexCandidates, c ∈ s.tree.mapBlockIndex ∧
    (s.node c).nChainTx ≠ 0 ∧ ¬ s.less c t = true

/-- A block has got a failure bit and is no candidate any more. -/
structure Marked (s s' : ChainState) (b : BlockPtr) : Prop where
  same : SameLinks s s'
  vChain : s'.vChain = s.vChain
  node : ∀ c, c ≠ b → s'.node c = s.node c
  failedValid : (s.node b).nStatus.failedValid = true → (s'.node b).nStatus.failedValid = true
  less : ∀ a c, s'.less a c = s.less a c
  candidates : ∀ c ∈ s'.setBlockIndexCandidates, c ∈ s.setBlockIndexCandidates

theorem modifyStatus_marked (b : BlockPtr) {f : BlockStatus → BlockStatus}
    (hd : ∀ st, (f st).haveData = st.haveData) (hv : ∀ st, (f st).valid = st.valid)
    (hf : ∀ st, st.failedValid = true → (f st).failedValid = true) :
    Marked s ((s.modifyStatus b f).eraseCandidate b) b where
  same := (modifyStatus_same b hd hv).trans
    ⟨rfl, fun _ => rfl, fun _ => rfl, fun _ => rfl, fun _ => Nat.le_refl _, rfl⟩
  vChain := rfl
  node := fun _ hc => modifyStatus_node hc
  failedValid := by
    intro h
    show ((s.modifyStatus b f).node b).nStatus.failedValid = true
    rw [modifyStatus_node_self]
    exact hf _ h
  less := modifyStatus_less s b f
  candidates := fun _ hc => List.mem_of_mem_filter hc

theorem Marked.line (h : Marked s s' b) (c : BlockPtr) : s'.line c = s.line c := by
  show s'.tree.line c = s.tree.line c
  rw [h.same.tree]

theorem Marked.failed (h : Marked s s' b) {c : BlockPtr} (hc : c ≠ b) :
    s'.failed c = s.failed c := by
  unfold ChainState.failed
  rw [h.node c hc]

theorem Marked.failedValid_of (h : Marked s s' b) {c : BlockPtr}
    (hc : (s.node c).nStatus.failedValid = true) : (s'.node c).nStatus.failedValid = true := by
  rcases eq_or_ne c b with rfl | hcb
  · exact h.failedValid hc
  · rw [h.node c hcb]
    exact hc

theorem Marked.failedLine (h : Marked s s' b)
    (hold : ∀ c ∈ s.tree.mapBlockIndex, s.failed c = true →
      ∃ a ∈ s.line c, (s.node a).nStatus.failedValid = true)
    (hb : ∃ a ∈ s.line b, (s'.node a).nStatus.failedValid = true) :
    ∀ c ∈ s'.tree.mapBlockIndex, s'.failed c = true →
      ∃ a ∈ s'.line c, (s'.node a).nStatus.failedValid = true := by
  intro c hc hf
  rw [h.same.tree] at hc
  rw [h.line]
  rcases eq_or_ne c b with rfl | hcb
  · exact hb
  · rw [h.failed hcb] at hf
    obtain ⟨a, ha, hv⟩ := hold c hc hf
    exact ⟨a, ha, h.failedValid_of hv⟩

theorem Marked.sound (h : Marked s s' b)
    (hw : ∀ b p, s.tree.pprev b = some p → s.tree.nChainWork p < s.tree.nChainWork b)
    (hs : ∀ c ∈ s.setBlockIndexCandidates, c ∈ s.tree.mapBlockIndex ∧
      (s.node c).nChainTx ≠ 0 ∧ ¬ s.less c t = true) (ht : t' ∈ s.line t) :
    ∀ c ∈ s'.setBlockIndexCandidates, c ∈ s'.tree.mapBlockIndex ∧
      (s'.node c).nChainTx ≠ 0 ∧ ¬ s'.less c t' = true := by
  intro c hc
  obtain ⟨hidx, hlink, hle⟩ := hs c (h.candidates c hc)
  rw [h.same.tree, h.same.nChainTx, h.less]
  exact ⟨hidx, hlink, not_less_trans hle (not_less_of_mem_line hw ht)⟩

theorem Ranking.mark (h : Ranking verdict s t) (hm : Marked s s' b)
    (hb : (s'.node b).nStatus.failedValid = true) : Retreating verdict s' b t where
  root := hm.same.tree ▸ h.root
  work := hm.same.tree ▸ h.work
  active := by
    show s'.vChain = (s'.line t).reverse.map some
    rw [hm.vChain, hm.line]
    exact h.active
  tip_mem := hm.same.tree ▸ h.tip_mem
  tip_ok := by
    intro a ha
    rw [hm.line] at ha
    obtain ⟨hf, hd⟩ := h.tip_ok.1 a ha
    refine ⟨fun hab => ?_, (hm.same.haveData a).trans hd, h.tip_ok.2 a ha⟩
    rw [hm.failed hab]
    exact hf
  tip_linked := (hm.same.nChainTx t).symm ▸ h.tip_linked
  marked := hb
  failedLine := hm.failedLine h.failedLine ⟨b, s.tree.mem_line_self b, hb⟩
  sound := hm.sound h.work h.sound (s.tree.mem_line_self t)

theorem Retreating.step (h : Retreating verdict s b t) (hc : Counts s) (hm : Marked s s' t)
    (hb : b ∈ s.line t) (hp : s.tree.pprev t = some p) :
    Retreating verdict s'.disconnectTip b p ∧ SameLinks s s'.disconnectTip := by
  have hpt : p ∈ s.line t := parent_mem_line s.tree.graded hp
  have hactive : s'.Active t := by
    show s'.vChain = (s'.line t).reverse.map some
    rw [hm.vChain, hm.line]
    exact h.active
  have hdisc : s'.disconnectTip = s'.withTip p := by
    unfold disconnectTip
    rw [hactive.tip_eq, hm.same.tree]
    dsimp only
    rw [hp]
    exact hactive.setTip_eq p
  rw [hdisc]
  have hne : ∀ a ∈ s.line p, a ≠ t := by
    rintro a ha rfl
    have hle := height_le_of_mem s.tree.graded ha
    have hch := s.tree.graded.child a p hp
    omega
  refine ⟨?_, hm.same.trans ⟨rfl, fun _ => rfl, fun _ => rfl, fun _ => rfl,
    fun _ => Nat.le_refl _, rfl⟩⟩
  constructor
  · exact hm.same.tree ▸ h.root
  · exact hm.same.tree ▸ h.work
  · exact withTip_active s' p
  · exact hm.same.tree ▸ (s.tree.indexed t p hp).2
  · intro a ha
    have ha' : a ∈ s.line p := by
      rw [← hm.line]
      exact ha
    obtain ⟨hf, hd, hv⟩ := h.tip_ok a (BlockTree.mem_line_trans ha' hpt)
    refine ⟨fun hab => ?_, (hm.same.haveData a).trans hd, hv⟩
    show s'.failed a = false
    rw [hm.failed (hne a ha')]
    exact hf hab
  · show (s'.node p).nChainTx ≠ 0
    rw [hm.same.nChainTx]
    exact hc.parent t h.tip_mem h.tip_linked p hp
  · exact hm.failedValid_of h.marked
  · exact hm.failedLine h.failedLine ⟨b, hb, hm.failedValid_of h.marked⟩
  · exact hm.sound h.work h.sound hpt

theorem invalidateLoop_spec (hroot : s.tree.pprev b ≠ none) : ∀ (fuel : ℕ) (s₁ : ChainState)
    (t : BlockPtr), SameLinks s s₁ → Retreating verdict s₁ b t → Counts s₁ →
      s.tree.nHeight t < fuel + s.tree.nHeight b →
      ∃ t', SameLinks s (invalidateLoop b fuel s₁) ∧
        Retreating verdict (invalidateLoop b fuel s₁) b t' ∧
        b ∉ (invalidateLoop b fuel s₁).line t' := by
  intro fuel
  induction fuel with
  | zero =>
    intro s₁ t hs h _ hlt
    refine ⟨t, hs, h, fun hb => ?_⟩
    have hle := height_le_of_mem s₁.tree.graded hb
    rw [hs.tree] at hle
    omega
  | succ fuel ih =>
    intro s₁ t hs h hc hlt
    rcases hb : s₁.contains b with - | -
    · have hstop : invalidateLoop b (fuel + 1) s₁ = s₁ := by
        simp only [invalidateLoop]
        rw [hb, if_neg (by simp)]
      rw [hstop]
      refine ⟨t, hs, h, fun hmem => ?_⟩
      rw [h.active.contains_iff.mpr hmem] at hb
      cases hb
    · have hmem := h.active.contains_iff.mp hb
      have hstep : invalidateLoop b (fuel + 1) s₁ = invalidateLoop b fuel
          ((s₁.modifyStatus t fun st =>
            { st with failedChild := true }).eraseCandidate t).disconnectTip := by
        simp only [invalidateLoop]
        rw [hb, if_pos rfl, h.active.tip_eq]
      -- the tip is not genesis
      obtain ⟨p, hp⟩ : ∃ p, s₁.tree.pprev t = some p := by
        rcases hp : s₁.tree.pprev t with - | p
        · rw [show s₁.line t = [t] from line_root s₁.tree.graded hp] at hmem
          obtain rfl := List.mem_singleton.mp hmem
          rw [hs.tree] at hp
          exact absurd hp hroot
        · exact ⟨p, rfl⟩
      have hm : Marked s₁ ((s₁.modifyStatus t fun st =>
          { st with failedChild := true }).eraseCandidate t) t :=
        modifyStatus_marked t (fun _ => rfl) (fun _ => rfl) fun _ hv => hv
      obtain ⟨h', hs'⟩ := h.step hc hm hmem hp
      have hch := s₁.tree.graded.child t p hp
      rw [hs.tree] at hch
      rw [hstep]
      exact ih _ p (hs.trans hs') h' (hc.same hs') (by omega)

/-! #### The candidates that are added again -/

def setCandidates (s : ChainState) (cs : List BlockPtr) : ChainState :=
  { s with setBlockIndexCandidates := cs }

theorem foldl_rescanBlock (ht : s.tip = some t) : ∀ (l cs : List BlockPtr),
    ∃ cs', l.foldl rescanBlock (s.setCandidates cs) = s.setCandidates cs' ∧
      ∀ c, c ∈ cs' ↔ c ∈ cs ∨ c ∈ l ∧ (s.node c).isValid BLOCK_VALID_TRANSACTIONS = true ∧
        (s.node c).nChainTx ≠ 0 ∧ ¬ s.less c t = true := by
  intro l
  induction l with
  | nil => exact fun cs => ⟨cs, rfl, by simp⟩
  | cons b l ih =>
    intro cs
    have hstep : rescanBlock (s.setCandidates cs) b
        = if (s.node b).isValid BLOCK_VALID_TRANSACTIONS ∧ (s.node b).nChainTx ≠ 0 ∧
            !s.less b t then s.setCandidates (cs.insert b) else s.setCandidates cs := by
      unfold rescanBlock
      rw [show (s.setCandidates cs).tip = some t from ht]
      rfl
    rw [List.foldl_cons, hstep]
    split
    next hcond =>
      obtain ⟨cs', hr, hmem⟩ := ih (cs.insert b)
      refine ⟨cs', hr, fun c => (hmem c).trans ?_⟩
      rw [List.mem_insert_iff, List.mem_cons]
      rcases eq_or_ne c b with rfl | hcb
      · have hyes : (s.node c).isValid BLOCK_VALID_TRANSACTIONS = true ∧
            (s.node c).nChainTx ≠ 0 ∧ ¬ s.less c t = true := by simpa using hcond
        tauto
      · simp [hcb]
    next hcond =>
      obtain ⟨cs', hr, hmem⟩ := ih cs
      refine ⟨cs', hr, fun c => (hmem c).trans ?_⟩
      rw [List.mem_cons]
      rcases eq_or_ne c b with rfl | hcb
      · have hno : ¬ ((s.node c).isValid BLOCK_VALID_TRANSACTIONS = true ∧
            (s.node c).nChainTx ≠ 0 ∧ ¬ s.less c t = true) := by simpa using hcond
        tauto
      · simp [hcb]

theorem IndexOk.invalidate (h : IndexOk verdict s) (hroot : s.tree.pprev b ≠ none) :
    IndexOk verdict (s.invalidateBlock b) := by
  obtain ⟨t, hl, hr⟩ := h
  have hm : Marked s
      ((s.modifyStatus b fun st => { st with failedValid := true }).eraseCandidate b) b :=
    modifyStatus_marked b (fun _ => rfl) (fun _ => rfl) fun _ _ => rfl
  have hmark : (((s.modifyStatus b fun st => { st with failedValid := true }).eraseCandidate b
      ).node b).nStatus.failedValid = true := by
    show ((s.modifyStatus b fun st => { st with failedValid := true }).node b
      ).nStatus.failedValid = true
    rw [modifyStatus_node_self]
  unfold invalidateBlock
  dsimp only
  generalize (s.modifyStatus b fun st => { st with failedValid := true }).eraseCandidate b = s₁
    at hm hmark ⊢
  obtain ⟨t', hs, hret, hb⟩ := invalidateLoop_spec hroot s₁.vChain.length s₁ t hm.same
    (hr.mark hm hmark) (hl.toCounts.same hm.same) (by
      rw [hm.vChain, hr.active.length_eq]
      omega)
  generalize invalidateLoop b s₁.vChain.length s₁ = s₂ at hs hret hb ⊢
  obtain ⟨cs', hres, hmem⟩ := foldl_rescanBlock hret.active.tip_eq s₂.tree.mapBlockIndex
    s₂.setBlockIndexCandidates
  have hl₂ := hl.same hs
  rw [show s₂.setCandidates s₂.setBlockIndexCandidates = s₂ from rfl] at hres
  rw [hres]
  refine ⟨t', hl₂.same ⟨rfl, fun _ => rfl, fun _ => rfl, fun _ => rfl, fun _ => Nat.le_refl _, rfl⟩,
    ?_⟩
  refine ⟨hret.root, hret.work, hret.active, hret.tip_mem, ⟨fun a ha => ?_, fun a ha =>
    (hret.tip_ok a ha).2.2⟩, hret.tip_linked, hret.failedLine, fun c hc => ?_,
    fun c hc hlink hf hle => ?_⟩
  · obtain ⟨hf, hd, -⟩ := hret.tip_ok a ha
    exact ⟨hf fun he => hb (he ▸ ha), hd⟩
  · rcases (hmem c).mp hc with hc' | ⟨hidx, -, hlink, hle⟩
    · exact hret.sound c hc'
    · exact ⟨hidx, hlink, hle⟩
  · apply (hmem c).mpr
    refine .inr ⟨hc, ?_, hlink, hle⟩
    have hvalid := hl₂.validTx c hc (hl₂.tx c hc hlink)
    unfold CBlockIndex.isValid
    rw [show (s₂.node c).nStatus.failed = false from hf, if_neg (by simp)]
    exact decide_eq_true hvalid

/-! ### `ReconsiderBlock` -/

/-- The entry without failure bits. -/
def cleared (e : CBlockIndex) : CBlockIndex :=
  { e with nStatus := { e.nStatus with failedValid := false, failedChild := false } }

theorem cleared_eq_self {e : CBlockIndex} (h : e.nStatus.failed = false) : cleared e = e := by
  obtain ⟨nTx, nChainTx, ⟨valid, haveData, haveUndo, failedValid, failedChild⟩, seq⟩ := e
  obtain ⟨rfl, rfl⟩ := Bool.or_eq_false_iff.mp h
  rfl

theorem clearFailed_node (s : ChainState) (b c : BlockPtr) :
    (s.clearFailed b).node c = if c = b then cleared (s.node c) else s.node c := by
  rcases eq_or_ne c b with rfl | hcb
  · rw [if_pos rfl]
    exact modifyStatus_node_self s c _
  · rw [if_neg hcb]
    exact modifyStatus_node hcb

/-- Bits have been removed from the entries in `Freed`. -/
structure Clearing (s s' : ChainState) (Freed : BlockPtr → Prop) [DecidablePred Freed] :
    Prop where
  tree : s'.tree = s.tree
  vChain : s'.vChain = s.vChain
  unlinked : s'.mapBlocksUnlinked = s.mapBlocksUnlinked
  node : ∀ c, s'.node c = if Freed c then cleared (s.node c) else s.node c

section

variable {Freed : BlockPtr → Prop} [DecidablePred Freed]

theorem Clearing.line (h : Clearing s s' Freed) (c : BlockPtr) : s'.line c = s.line c := by
  show s'.tree.line c = s.tree.line c
  rw [h.tree]

theorem Clearing.kept (h : Clearing s s' Freed) (c : BlockPtr) :
    (s'.node c).nTx = (s.node c).nTx ∧ (s'.node c).nChainTx = (s.node c).nChainTx ∧
      (s'.node c).nSequenceId = (s.node c).nSequenceId ∧
      (s'.node c).nStatus.haveData = (s.node c).nStatus.haveData ∧
      (s'.node c).nStatus.valid = (s.node c).nStatus.valid := by
  rw [h.node]
  split
  · exact ⟨rfl, rfl, rfl, rfl, rfl⟩
  · exact ⟨rfl, rfl, rfl, rfl, rfl⟩

theorem Clearing.same (h : Clearing s s' Freed) : SameLinks s s' :=
  ⟨h.tree, fun c => (h.kept c).1, fun c => (h.kept c).2.1, fun c => (h.kept c).2.2.2.1,
    fun c => Nat.le_of_eq (h.kept c).2.2.2.2.symm, h.unlinked⟩

theorem Clearing.less (h : Clearing s s' Freed) (a c : BlockPtr) : s'.less a c = s.less a c := by
  unfold ChainState.less
  rw [h.tree, (h.kept a).2.2.1, (h.kept c).2.2.1]

theorem Clearing.failed (h : Clearing s s' Freed) (c : BlockPtr) :
    s'.failed c = (s.failed c && !decide (Freed c)) := by
  unfold ChainState.failed
  rw [h.node]
  split
  next hc => simp [hc, cleared, BlockStatus.failed]
  next hc => simp [hc]

theorem Clearing.failedValid (h : Clearing s s' Freed) (c : BlockPtr) :
    (s'.node c).nStatus.failedValid = ((s.node c).nStatus.failedValid && !decide (Freed c)) := by
  rw [h.node]
  split
  next hc => simp [hc, cleared]
  next hc => simp [hc]

end

theorem Clearing.comp {F G H : BlockPtr → Prop} [DecidablePred F] [DecidablePred G]
    [DecidablePred H] (h : Clearing s s' F) (h' : Clearing s' s'' G)
    (hH : ∀ c, H c ↔ F c ∨ G c) : Clearing s s'' H where
  tree := h'.tree.trans h.tree
  vChain := h'.vChain.trans h.vChain
  unlinked := h'.unlinked.trans h.unlinked
  node := by
    intro c
    rw [h'.node, h.node]
    simp only [hH]
    by_cases hF : F c
    · by_cases hG : G c
      · simp only [hF, hG, true_or, if_true]
        rfl
      · simp only [hF, hG, true_or, if_true, if_false]
    · simp only [hF, false_or, if_false]

theorem reconsiderEntry_spec (ht : s.tip = some t) (b : BlockPtr) :
    Clearing s (reconsiderEntry p s b) (fun c => c = b ∧ p ∈ s.line c) ∧
      ∀ c, c ∈ (reconsiderEntry p s b).setBlockIndexCandidates ↔
        c ∈ s.setBlockIndexCandidates ∨ (c = b ∧ p ∈ s.line c) ∧ s.failed c = true ∧
          BLOCK_VALID_TRANSACTIONS ≤ (s.node c).nStatus.valid ∧ (s.node c).nChainTx ≠ 0 ∧
          s.less t c = true := by
  have hanc : s.tree.getAncestor b (s.tree.nHeight p) = some p ↔ p ∈ s.line b := by
    rw [BlockTree.getAncestor_eq_some]
    exact and_iff_left rfl
  unfold reconsiderEntry
  simp only [hanc]
  split
  next hcond =>
    -- the entry is freed
    obtain ⟨hvalid, hp⟩ := hcond
    have hclear : Clearing s (s.clearFailed b) (fun c => c = b ∧ p ∈ s.line c) := by
      refine ⟨rfl, rfl, rfl, fun c => ?_⟩
      rw [clearFailed_node]
      rcases eq_or_ne c b with rfl | hcb
      · rw [if_pos rfl, if_pos ⟨rfl, hp⟩]
      · rw [if_neg hcb, if_neg fun h => hcb h.1]
    have hfailed : BLOCK_VALID_TRANSACTIONS ≤ (s.node b).nStatus.valid → s.failed b = true := by
      intro hv
      unfold CBlockIndex.isValid at hvalid
      unfold failed
      by_contra hf
      rw [if_neg hf] at hvalid
      simp [hv] at hvalid
    have hisValid : ((s.clearFailed b).node b).isValid BLOCK_VALID_TRANSACTIONS
        = decide (BLOCK_VALID_TRANSACTIONS ≤ (s.node b).nStatus.valid) := by
      rw [clearFailed_node, if_pos rfl]
      rfl
    rw [show (s.clearFailed b).tip = some t from ht]
    dsimp only
    rw [hisValid, (hclear.kept b).2.1, hclear.less]
    split
    next hins =>
      obtain ⟨hv, hn, hl⟩ := hins
      refine ⟨⟨hclear.tree, hclear.vChain, hclear.unlinked, hclear.node⟩, fun c => ?_⟩
      show c ∈ s.setBlockIndexCandidates.insert b ↔ _
      rw [List.mem_insert_iff]
      rcases eq_or_ne c b with rfl | hcb
      · have hv' := of_decide_eq_true hv
        have hf := hfailed hv'
        tauto
      · simp [hcb]
    next hins =>
      refine ⟨hclear, fun c => ?_⟩
      show c ∈ s.setBlockIndexCandidates ↔ _
      rcases eq_or_ne c b with rfl | hcb
      · rw [decide_eq_true_eq] at hins
        tauto
      · simp [hcb]
  next hcond =>
    -- it is not above `p`, or there is nothing to free
    have hfree : p ∈ s.line b → s.failed b = false := by
      intro hp
      by_contra hf
      apply hcond
      refine ⟨?_, hp⟩
      unfold CBlockIndex.isValid
      rw [if_pos (by simpa [failed] using hf)]
      rfl
    refine ⟨⟨rfl, rfl, rfl, fun c => ?_⟩, fun c => ?_⟩
    · split
      next hc =>
        obtain ⟨rfl, hp⟩ := hc
        exact (cleared_eq_self (hfree hp)).symm
      next => rfl
    · constructor
      · exact .inl
      · rintro (hc | ⟨⟨rfl, hp⟩, hf, -⟩)
        · exact hc
        · rw [hfree hp] at hf
          cases hf

/-- **The loop over the index** frees the descendants of `p`, and adds those that are better
than the tip to the candidates. -/
theorem foldl_reconsiderEntry : ∀ (l : List BlockPtr) (s : ChainState), s.tip = some t →
    Clearing s (l.foldl (reconsiderEntry p) s) (fun c => c ∈ l ∧ p ∈ s.line c) ∧
      ∀ c, c ∈ (l.foldl (reconsiderEntry p) s).setBlockIndexCandidates ↔
        c ∈ s.setBlockIndexCandidates ∨ (c ∈ l ∧ p ∈ s.line c) ∧ s.failed c = true ∧
          BLOCK_VALID_TRANSACTIONS ≤ (s.node c).nStatus.valid ∧ (s.node c).nChainTx ≠ 0 ∧
          s.less t c = true := by
  intro l
  induction l with
  | nil =>
    intro s _
    exact ⟨⟨rfl, rfl, rfl, fun c => (if_neg fun h => by cases h.1).symm⟩, fun c => by simp⟩
  | cons b l ih =>
    intro s ht
    obtain ⟨h₁, hc₁⟩ := reconsiderEntry_spec (p := p) ht b
    obtain ⟨h₂, hc₂⟩ := ih (reconsiderEntry p s b) (by
      unfold tip
      rw [h₁.vChain]
      exact ht)
    rw [List.foldl_cons]
    simp only [h₁.line] at h₂ hc₂
    refine ⟨h₁.comp h₂ fun c => ?_, fun c => ?_⟩
    · rw [List.mem_cons]
      tauto
    · rw [hc₂, hc₁, h₁.failed, (h₁.kept c).2.2.2.2, (h₁.kept c).2.1, h₁.less, List.mem_cons]
      by_cases hcb : c = b ∧ p ∈ s.line c
      · obtain ⟨rfl, hpc⟩ := hcb
        simp [hpc]
      · simp only [hcb, decide_false, Bool.not_false, Bool.and_true, false_and, or_false]
        tauto

theorem foldl_reconsiderAncestor : ∀ (l : List BlockPtr) (s : ChainState),
    Clearing s (l.foldl reconsiderAncestor s) (fun c => c ∈ l) ∧
      (l.foldl reconsiderAncestor s).setBlockIndexCandidates = s.setBlockIndexCandidates := by
  intro l
  induction l with
  | nil =>
    intro s
    exact ⟨⟨rfl, rfl, rfl, fun c => (if_neg fun h => by cases h).symm⟩, rfl⟩
  | cons b l ih =>
    intro s
    have h₁ : Clearing s (reconsiderAncestor s b) (fun c => c = b) ∧
        (reconsiderAncestor s b).setBlockIndexCandidates = s.setBlockIndexCandidates := by
      unfold reconsiderAncestor
      split
      next => exact ⟨⟨rfl, rfl, rfl, fun c => clearFailed_node s b c⟩, rfl⟩
      next hf =>
        refine ⟨⟨rfl, rfl, rfl, fun c => ?_⟩, rfl⟩
        split
        next hc =>
          subst hc
          exact (cleared_eq_self (by simpa [failed] using hf)).symm
        next => rfl
    obtain ⟨h₂, hc₂⟩ := ih (reconsiderAncestor s b)
    rw [List.foldl_cons]
    exact ⟨h₁.1.comp h₂ fun c => List.mem_cons, hc₂.trans h₁.2⟩

/-- `ReconsiderBlock` leaves no failure bit without a reason, and the ancestors that it frees
do not have to become candidates. -/
structure Reconsiderable (s : ChainState) (p : BlockPtr) : Prop where
  /-- Every failed block on another branch has a reason that is not an ancestor of `p`. -/
  reason : ∀ c ∈ s.tree.mapBlockIndex, s.failed c = true → p ∉ s.line c → c ∉ s.line p →
    ∃ a ∈ s.line c, (s.node a).nStatus.failedValid = true ∧ a ∉ s.line p
  /-- Every failed ancestor that is linked and no worse than the tip is a candidate. -/
  candidate : ∀ c ∈ s.line p, c ≠ p → s.failed c = true → (s.node c).nChainTx ≠ 0 →
    (∀ t, s.tip = some t → ¬ s.less c t = true) → c ∈ s.setBlockIndexCandidates

theorem IndexOk.reconsider (h : IndexOk verdict s) (hp : Reconsiderable s p) :
    IndexOk verdict (s.reconsiderBlock p) := by
  obtain ⟨t, hl, hr⟩ := h
  obtain ⟨h₁, hc₁⟩ := foldl_reconsiderEntry (p := p) s.tree.mapBlockIndex s hr.active.tip_eq
  obtain ⟨h₂, hc₂⟩ := foldl_reconsiderAncestor (s.line p)
    (s.tree.mapBlockIndex.foldl (reconsiderEntry p) s)
  have hclear := h₁.comp h₂ (H := fun c => (c ∈ s.tree.mapBlockIndex ∧ p ∈ s.line c) ∨
    c ∈ s.line p) fun c => Iff.rfl
  have hcand : ∀ c, c ∈ (s.reconsiderBlock p).setBlockIndexCandidates ↔
      c ∈ s.setBlockIndexCandidates ∨ (c ∈ s.tree.mapBlockIndex ∧ p ∈ s.line c) ∧
        s.failed c = true ∧ BLOCK_VALID_TRANSACTIONS ≤ (s.node c).nStatus.valid ∧
        (s.node c).nChainTx ≠ 0 ∧ s.less t c = true := by
    intro c
    unfold reconsiderBlock
    rw [hc₂]
    exact hc₁ c
  change Clearing s (s.reconsiderBlock p) _ at hclear
  generalize s.reconsiderBlock p = s' at hclear hcand ⊢
  refine ⟨t, hl.same hclear.same, ?_⟩
  constructor
  · exact hclear.tree ▸ hr.root
  · exact hclear.tree ▸ hr.work
  · show s'.vChain = (s'.line t).reverse.map some
    rw [hclear.vChain, hclear.line]
    exact hr.active
  · exact hclear.tree ▸ hr.tip_mem
  · refine ⟨fun a ha => ?_, fun a ha => ?_⟩
    · rw [hclear.line] at ha
      obtain ⟨hf, hd⟩ := hr.tip_ok.1 a ha
      rw [hclear.failed, hf]
      exact ⟨rfl, (hclear.kept a).2.2.2.1.trans hd⟩
    · rw [hclear.line] at ha
      exact hr.tip_ok.2 a ha
  · rw [(hclear.kept t).2.1]
    exact hr.tip_linked
  · -- a bit that is left has a reason that is left
    intro c hc hf
    rw [hclear.tree] at hc
    rw [hclear.failed, Bool.and_eq_true, Bool.not_eq_true', decide_eq_false_iff_not, not_or] at hf
    obtain ⟨hf, hdesc, hanc⟩ := hf
    have hpc : p ∉ s.line c := fun hpc => hdesc ⟨hc, hpc⟩
    obtain ⟨a, ha, hv, hap⟩ := hp.reason c hc hf hpc hanc
    refine ⟨a, by rw [hclear.line]; exact ha, ?_⟩
    have hpa : ¬ p ∈ s.line a := fun hpa => hpc (BlockTree.mem_line_trans hpa ha)
    rw [hclear.failedValid, hv]
    simp [hpa, hap]
  · intro c hc
    rw [hclear.tree, (hclear.kept c).2.1, hclear.less]
    rcases (hcand c).mp hc with hc | ⟨⟨hidx, -⟩, -, -, hn, hlt⟩
    · exact hr.sound c hc
    · exact ⟨hidx, hn, not_less_of_less hlt⟩
  · intro c hc hlink hf hle
    rw [hclear.tree] at hc
    rw [(hclear.kept c).2.1] at hlink
    rw [hclear.less] at hle
    apply (hcand c).mpr
    rcases hold : s.failed c with - | -
    · exact .inl (hr.complete c hc hlink hold hle)
    · rw [hclear.failed, hold] at hf
      by_cases hpc : p ∈ s.line c
      · -- a descendant is not the tip, so it is better
        right
        have hct : c ≠ t := by
          rintro rfl
          have hgood := (hr.tip_ok.1 c (s.tree.mem_line_self c)).1
          rw [hold] at hgood
          cases hgood
        exact ⟨⟨hc, hpc⟩, rfl, hl.validTx c hc (hl.tx c hc hlink), hlink,
          less_of_not_less hle hct⟩
      · left
        have hanc : c ∈ s.line p := by
          by_contra hanc
          simp [hpc, hanc] at hf
        refine hp.candidate c hanc (fun he => hpc (he ▸ s.tree.mem_line_self c)) hold hlink ?_
        intro t₁ ht₁
        rw [hr.active.tip_eq] at ht₁
        obtain rfl := Option.some.inj ht₁
        exact hle

end ChainState

end Stonecoin
