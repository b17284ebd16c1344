/-
`ActivateBestChain` selects the best chain.

`Evolves` says what any part of the selection may do to the index: failure bits are only
set, candidates only removed.  `Selecting` is the loop invariant.  Beside the tip it names
a second block, the floor: a candidate whose whole line connects, such that every usable
block at least as good is a candidate.  While a reorganisation fails the tip falls back,
but the floor does not, and the loop ends only with the best candidate as the tip.

  * `activateBestChain_best`: the loop ends, with the best chain active.
-/
import Stonecoin.ActivateBestChain

namespace Stonecoin

namespace ChainState

open ParentTree

/-! ### What the selection may change -/

/-- An entry afterwards: nothing but its failure bits, its level and its undo bit may have
changed, and these only upwards. -/
structure EntryKept (e e' : CBlockIndex) : Prop where
  nTx : e'.nTx = e.nTx
  nChainTx : e'.nChainTx = e.nChainTx
  nSequenceId : e'.nSequenceId = e.nSequenceId
  haveData : e'.nStatus.haveData = e.nStatus.haveData
  haveUndo : e'.nStatus.haveUndo = true → e.nStatus.haveUndo = true ∨ e.nStatus.haveData = true
  failedValid : e.nStatus.failedValid = true → e'.nStatus.failedValid = true
  failedChild : e.nStatus.failedChild = true → e'.nStatus.failedChild = true
  le_valid : e.nStatus.valid ≤ e'.nStatus.valid
  valid_eq : e'.nStatus.valid = e.nStatus.valid ∨ e.nStatus.haveData = true

theorem EntryKept.refl (e : CBlockIndex) : EntryKept e e :=
  ⟨rfl, rfl, rfl, rfl, .inl, id, id, Nat.le_refl _, .inl rfl⟩

theorem EntryKept.trans {e e' e'' : CBlockIndex} (h : EntryKept e e') (h' : EntryKept e' e'') :
    EntryKept e e'' where
  nTx := h'.nTx.trans h.nTx
  nChainTx := h'.nChainTx.trans h.nChainTx
  nSequenceId := h'.nSequenceId.trans h.nSequenceId
  haveData := h'.haveData.trans h.haveData
  haveUndo := fun hu => (h'.haveUndo hu).elim h.haveUndo fun hd => .inr (h.haveData ▸ hd)
  failedValid := fun hf => h'.failedValid (h.failedValid hf)
  failedChild := fun hf => h'.failedChild (h.failedChild hf)
  le_valid := Nat.le_trans h.le_valid h'.le_valid
  valid_eq := by
    rcases h'.valid_eq with hv | hd
    · rw [hv]
      exact h.valid_eq
    · exact .inr (h.haveData ▸ hd)

variable {verdict : BlockPtr → ConnectVerdict} {Wanted : BlockPtr → Prop}
  {s s' s'' : ChainState}

/-- What a part of the selection may do to the index. -/
structure Evolves (verdict : BlockPtr → ConnectVerdict) (s s' : ChainState) : Prop where
  tree : s'.tree = s.tree
  entry : ∀ b, EntryKept (s.node b) (s'.node b)
  newValid : ∀ b, (s'.node b).nStatus.failedValid = true →
    (s.node b).nStatus.failedValid = true ∨ verdict b = .invalid false
  newChild : ∀ b, (s'.node b).nStatus.failedChild = true →
    (s.node b).nStatus.failedChild = true ∨
      ∃ a ∈ s.line b, s.failed a = true ∨ (s'.node a).nStatus.failedValid = true
  unlinked : s'.mapBlocksUnlinked = s.mapBlocksUnlinked
  sequence : s'.nBlockSequenceId = s.nBlockSequenceId
  candidates : ∀ c ∈ s'.setBlockIndexCandidates, c ∈ s.setBlockIndexCandidates

theorem failed_iff {b : BlockPtr} : s.failed b = true ↔
    (s.node b).nStatus.failedValid = true ∨ (s.node b).nStatus.failedChild = true := by
  unfold failed BlockStatus.failed
  exact Bool.or_eq_true_iff

theorem Evolves.of_node (ht : s'.tree = s.tree) (hn : s'.node = s.node)
    (hu : s'.mapBlocksUnlinked = s.mapBlocksUnlinked)
    (hs : s'.nBlockSequenceId = s.nBlockSequenceId)
    (hc : ∀ c ∈ s'.setBlockIndexCandidates, c ∈ s.setBlockIndexCandidates) :
    Evolves verdict s s' where
  tree := ht
  entry := fun _ => hn ▸ EntryKept.refl _
  newValid := fun _ h => .inl (hn ▸ h)
  newChild := fun _ h => .inl (hn ▸ h)
  unlinked := hu
  sequence := hs
  candidates := hc

theorem Evolves.refl (s : ChainState) : Evolves verdict s s :=
  .of_node rfl rfl rfl rfl fun _ h => h

theorem Evolves.failed_mono (h : Evolves verdict s s') {b : BlockPtr} (hb : s.failed b = true) :
    s'.failed b = true := by
  rw [failed_iff] at hb ⊢
  exact hb.imp (h.entry b).failedValid (h.entry b).failedChild

theorem Evolves.not_failed (h : Evolves verdict s s') {b : BlockPtr} (hb : s'.failed b = false) :
    s.failed b = false := by
  rcases hf : s.failed b with - | -
  · rfl
  · rw [h.failed_mono hf] at hb
    cases hb

theorem Evolves.less_eq (h : Evolves verdict s s') (a b : BlockPtr) :
    s'.less a b = s.less a b := by
  unfold less
  rw [h.tree, (h.entry a).nSequenceId, (h.entry b).nSequenceId]

theorem Evolves.line_eq (h : Evolves verdict s s') (b : BlockPtr) : s'.line b = s.line b := by
  show s'.tree.line b = s.tree.line b
  rw [h.tree]

theorem Evolves.trans (h : Evolves verdict s s') (h' : Evolves verdict s' s'') :
    Evolves verdict s s'' where
  tree := h'.tree.trans h.tree
  entry := fun b => (h.entry b).trans (h'.entry b)
  newValid := fun b hb => (h'.newValid b hb).elim (h.newValid b) .inr
  newChild := by
    intro b hb
    rcases h'.newChild b hb with hb' | ⟨a, ha, hfail⟩
    · rcases h.newChild b hb' with h₀ | ⟨a, ha, hfail⟩
      · exact .inl h₀
      · exact .inr ⟨a, ha, hfail.imp_right (h'.entry a).failedValid⟩
    · have ha' : a ∈ s.line b := by
        rwa [h.line_eq] at ha
      rcases hfail with hfail | hfail
      · rcases failed_iff.mp hfail with hv | hc
        · exact .inr ⟨a, ha', .inr ((h'.entry a).failedValid hv)⟩
        · rcases h.newChild a hc with h₀ | ⟨d, hd, hfail'⟩
          · exact .inr ⟨a, ha', .inl (failed_iff.mpr (.inr h₀))⟩
          · exact .inr ⟨d, BlockTree.mem_line_trans hd ha',
              hfail'.imp_right (h'.entry d).failedValid⟩
      · exact .inr ⟨a, ha', .inr hfail⟩
  unlinked := h'.unlinked.trans h.unlinked
  sequence := h'.sequence.trans h.sequence
  candidates := fun c hc => h.candidates c (h'.candidates c hc)

theorem evolves_modifyStatus (b : BlockPtr) (f : BlockStatus → BlockStatus)
    (hk : EntryKept (s.node b) { s.node b with nStatus := f (s.node b).nStatus })
    (hv : (f (s.node b).nStatus).failedValid = true →
      (s.node b).nStatus.failedValid = true ∨ verdict b = .invalid false)
    (hc : (f (s.node b).nStatus).failedChild = true →
      (s.node b).nStatus.failedChild = true ∨ ∃ a ∈ s.line b, s.failed a = true) :
    Evolves verdict s (s.modifyStatus b f) := by
  have hnode : ∀ c, (s.modifyStatus b f).node c
      = if c = b then { s.node b with nStatus := f (s.node b).nStatus } else s.node c := by
    intro c
    exact Function.update_apply _ _ _ _
  refine ⟨rfl, fun c => ?_, fun c h => ?_, fun c h => ?_, rfl, rfl, fun c h => h⟩
  · rw [hnode]
    split
    next he => exact he ▸ hk
    next => exact EntryKept.refl _
  · rw [hnode] at h
    split at h
    next he => exact he ▸ hv h
    next => exact .inl h
  · rw [hnode] at h
    split at h
    next he =>
      subst he
      exact (hc h).imp_right fun ⟨a, ha, hf⟩ => ⟨a, ha, .inl hf⟩
    next => exact .inl h

/-! ### The loop invariant -/

/-- The block and its ancestors have data and no failure bit. -/
def Usable (s : ChainState) (b : BlockPtr) : Prop :=
  ∀ a ∈ s.line b, s.failed a = false ∧ (s.node a).nStatus.haveData = true

def Connectable (verdict : BlockPtr → ConnectVerdict) (s : ChainState) (b : BlockPtr) : Prop :=
  s.Usable b ∧ ∀ a ∈ s.line b, verdict a = .valid

theorem Usable.of_mem {a b : BlockPtr} (h : s.Usable b) (ha : a ∈ s.line b) : s.Usable a :=
  fun c hc => h c (BlockTree.mem_line_trans hc ha)

theorem Connectable.of_mem {a b : BlockPtr} (h : s.Connectable verdict b) (ha : a ∈ s.line b) :
    s.Connectable verdict a :=
  ⟨h.1.of_mem ha, fun c hc => h.2 c (BlockTree.mem_line_trans hc ha)⟩

theorem Evolves.usable_of (h : Evolves verdict s s') {b : BlockPtr} (hb : s'.Usable b) :
    s.Usable b := by
  intro a ha
  obtain ⟨hf, hd⟩ := hb a (by rw [h.line_eq]; exact ha)
  exact ⟨h.not_failed hf, (h.entry a).haveData ▸ hd⟩

theorem Evolves.connectable (h : Evolves verdict s s') {b : BlockPtr}
    (hb : s.Connectable verdict b) : s'.Connectable verdict b := by
  have hvalid : ∀ a ∈ s.line b, ¬ (s'.node a).nStatus.failedValid = true := by
    intro a ha hv
    rcases h.newValid a hv with h₀ | h₀
    · have hf := (hb.1 a ha).1
      rw [failed_iff.mpr (.inl h₀)] at hf
      cases hf
    · rw [hb.2 a ha] at h₀
      cases h₀
  refine ⟨fun a ha => ?_, fun a ha => hb.2 a (by rwa [h.line_eq] at ha)⟩
  rw [h.line_eq] at ha
  refine ⟨?_, (h.entry a).haveData.trans (hb.1 a ha).2⟩
  rcases hfa : s'.failed a with - | -
  · rfl
  · rcases failed_iff.mp hfa with hv | hc
    · exact absurd hv (hvalid a ha)
    · rcases h.newChild a hc with h₀ | ⟨d, hd, hfail⟩
      · have hf := (hb.1 a ha).1
        rw [failed_iff.mpr (.inr h₀)] at hf
        cases hf
      · have hd' := BlockTree.mem_line_trans hd ha
        rcases hfail with hfail | hfail
        · rw [(hb.1 d hd').1] at hfail
          cases hfail
        · exact absurd hfail (hvalid d hd')

def OneRoot (t : BlockTree) : Prop := ∃ g, ∀ b ∈ t.mapBlockIndex, g ∈ t.line b

/-- **The loop invariant**, with the tip and the floor.  `Wanted` are the blocks that have to
be candidates when they are good enough; it says nothing about those that have failed. -/
structure Selecting (verdict : BlockPtr → ConnectVerdict) (Wanted : BlockPtr → Prop)
    (s : ChainState) (t floor : BlockPtr) : Prop where
  root : OneRoot s.tree
  active : s.Active t
  tip_mem : t ∈ s.tree.mapBlockIndex
  tip_ok : s.Connectable verdict t
  floor_ok : s.Connectable verdict floor
  floor_mem : floor ∈ s.setBlockIndexCandidates
  candidate : ∀ c ∈ s.setBlockIndexCandidates, c ∈ s.tree.mapBlockIndex ∧
    ∀ a ∈ s.line c, (s.node a).nStatus.haveData = true
  wanted : ∀ b ∈ s.tree.mapBlockIndex, s.Usable b → Wanted b
  complete : ∀ b, Wanted b → s.failed b = false → ¬ s.less b floor = true →
    b ∈ s.setBlockIndexCandidates

theorem Selecting.evolve {t t' floor floor' : BlockPtr} (h : Selecting verdict Wanted s t floor)
    (he : Evolves verdict s s') (hactive : s'.Active t') (ht : t' ∈ s.tree.mapBlockIndex)
    (htip : s.Connectable verdict t') (hfloor : s.Connectable verdict floor')
    (hmem : floor' ∈ s'.setBlockIndexCandidates) (hle : ¬ s.less floor' floor = true)
    (hrem : ∀ c ∈ s.setBlockIndexCandidates, c ∈ s'.setBlockIndexCandidates ∨
      s'.failed c = true ∨ s.less c floor' = true) : Selecting verdict Wanted s' t' floor' where
  root := he.tree ▸ h.root
  active := hactive
  tip_mem := he.tree ▸ ht
  tip_ok := he.connectable htip
  floor_ok := he.connectable hfloor
  floor_mem := hmem
  candidate := by
    intro c hc
    obtain ⟨hidx, hdata⟩ := h.candidate c (he.candidates c hc)
    refine ⟨he.tree ▸ hidx, fun a ha => ?_⟩
    rw [he.line_eq] at ha
    rw [(he.entry a).haveData]
    exact hdata a ha
  wanted := by
    intro b hb hu
    rw [he.tree] at hb
    exact h.wanted b hb (he.usable_of hu)
  complete := by
    intro b hw hgood hlt
    rw [he.less_eq] at hlt
    rcases hrem b (h.complete b hw (he.not_failed hgood) (not_less_trans hlt hle)) with hc | hf | hl
    · exact hc
    · rw [hf] at hgood
      cases hgood
    · exact absurd hl hlt

/-! ### `FindMostWorkChain` -/

theorem findUnusable_eq_none : ∀ (l passed : List BlockPtr), s.findUnusable passed l = none →
    ∃ pre post, l = pre ++ post ∧
      (∀ b ∈ pre, s.failed b = false ∧ (s.node b).nStatus.haveData = true) ∧
      ∀ h ∈ post.head?, s.contains h = true := by
  intro l
  induction l with
  | nil => exact fun passed _ => ⟨[], [], rfl, by simp, by simp⟩
  | cons b bs ih =>
    intro passed h
    simp only [findUnusable] at h
    split at h
    next hc => exact ⟨[], b :: bs, rfl, by simp, by simpa using hc⟩
    next hc =>
      split at h
      · cases h
      next hbad =>
        obtain ⟨pre, post, rfl, hpre, hpost⟩ := ih _ h
        refine ⟨b :: pre, post, rfl, fun d hd => ?_, hpost⟩
        rcases List.mem_cons.mp hd with rfl | hd'
        · simpa using hbad
        · exact hpre d hd'

theorem findUnusable_eq_some {x : BlockPtr} {p : List BlockPtr} : ∀ (l passed : List BlockPtr),
    s.findUnusable passed l = some (p, x) →
      ∃ pre post, l = pre ++ x :: post ∧ p = passed ++ pre ∧
        (s.failed x = true ∨ (s.node x).nStatus.haveData = false) := by
  intro l
  induction l with
  | nil =>
    intro passed h
    cases h
  | cons b bs ih =>
    intro passed h
    simp only [findUnusable] at h
    split at h
    · cases h
    · split at h
      next hbad =>
        obtain ⟨rfl, rfl⟩ := Prod.mk.inj (Option.some.inj h)
        exact ⟨[], bs, rfl, by simp, by simpa using hbad⟩
      next hbad =>
        obtain ⟨pre, post, rfl, rfl, hx⟩ := ih _ h
        exact ⟨b :: pre, post, rfl, by simp, hx⟩

variable (verdict) in
theorem removeFailed_evolves {b x : BlockPtr} (hx : x ∈ s.line b) (hf : s.failed x = true) :
    Evolves verdict s (removeFailed true s b) ∧ (removeFailed true s b).failed b = true := by
  have hmark : Evolves verdict s (s.modifyStatus b fun st => { st with failedChild := true }) := by
    refine evolves_modifyStatus b _ ?_ .inl fun _ => .inr ⟨x, hx, hf⟩
    exact ⟨rfl, rfl, rfl, rfl, .inl, id, fun _ => rfl, Nat.le_refl _, .inl rfl⟩
  refine ⟨hmark.trans (.of_node rfl rfl rfl rfl fun c hc => List.mem_of_mem_filter hc), ?_⟩
  apply failed_iff.mpr
  right
  show ((Function.update s.node b _ b).nStatus).failedChild = true
  rw [Function.update_self]

variable (verdict) in
theorem foldl_removeFailed {x : BlockPtr} : ∀ (passed : List BlockPtr) (s : ChainState),
    s.failed x = true → (∀ b ∈ passed, x ∈ s.line b) →
      Evolves verdict s (passed.foldl (removeFailed true) s) ∧
        (passed.foldl (removeFailed true) s).vChain = s.vChain ∧
        (∀ b ∈ passed, (passed.foldl (removeFailed true) s).failed b = true) ∧
        (passed.foldl (removeFailed true) s).setBlockIndexCandidates
          = s.setBlockIndexCandidates.filter fun c => c ∉ passed := by
  intro passed
  induction passed with
  | nil =>
    intro s _ _
    exact ⟨.refl s, rfl, by simp, by simp⟩
  | cons b bs ih =>
    intro s hf hline
    obtain ⟨h₁, hb⟩ := removeFailed_evolves verdict (hline b (by simp)) hf
    obtain ⟨h₂, hv, hbs, hc⟩ := ih (removeFailed true s b) (h₁.failed_mono hf) (by
      intro d hd
      rw [h₁.line_eq]
      exact hline d (by simp [hd]))
    refine ⟨h₁.trans h₂, hv, fun d hd => ?_, ?_⟩
    · rcases List.mem_cons.mp hd with rfl | hd'
      · exact h₂.failed_mono hb
      · exact hbs d hd'
    · rw [List.foldl_cons, hc]
      show (s.setBlockIndexCandidates.filter (· ≠ b)).filter (fun c => c ∉ bs) = _
      rw [List.filter_filter]
      congr 1
      funext c
      simp [Bool.and_comm]

variable (verdict) in
/-- **A failed chain is removed**: the blocks down to the failed one get failure bits and
stop being candidates. -/
theorem removeChain_spec {passed : List BlockPtr} {x : BlockPtr} (hf : s.failed x = true)
    (hline : ∀ b ∈ passed, x ∈ s.line b) :
    Evolves verdict s (s.removeChain passed x) ∧ (s.removeChain passed x).vChain = s.vChain ∧
      (∀ c ∈ s.setBlockIndexCandidates, c ∈ (s.removeChain passed x).setBlockIndexCandidates ∨
        (s.removeChain passed x).failed c = true) ∧
      ∀ m ∈ s.setBlockIndexCandidates, m ∈ passed ++ [x] →
        (s.removeChain passed x).setBlockIndexCandidates.length
          < s.setBlockIndexCandidates.length := by
  obtain ⟨h₁, hv, hp, hc⟩ := foldl_removeFailed verdict passed s hf hline
  unfold removeChain
  rw [hf]
  have hcands : ((passed.foldl (removeFailed true) s).eraseCandidate x).setBlockIndexCandidates
      = s.setBlockIndexCandidates.filter fun c => c ≠ x ∧ c ∉ passed := by
    show ((passed.foldl (removeFailed true) s).setBlockIndexCandidates.filter (· ≠ x)) = _
    rw [hc, List.filter_filter]
    congr 1
    funext c
    simp
  refine ⟨h₁.trans (.of_node rfl rfl rfl rfl fun c hc => List.mem_of_mem_filter hc), hv,
    fun c hcm => ?_, fun m hm hmem => ?_⟩
  · by_cases hin : c = x ∨ c ∈ passed
    · right
      rcases hin with rfl | hin
      · exact h₁.failed_mono hf
      · exact hp c hin
    · left
      rw [hcands, List.mem_filter]
      exact ⟨hcm, by simpa [not_or] using hin⟩
  · rw [hcands]
    apply List.length_filter_lt_length_iff_exists.mpr
    refine ⟨m, hm, ?_⟩
    rcases List.mem_append.mp hmem with h | h
    · simp [h]
    · simp [List.mem_singleton.mp h]

/-- **`FindMostWorkChain` returns the best candidate, and that one is usable.**  What it
has removed on the way has failed; it does not look at verdicts. -/
theorem findMostWorkChainLoop_spec {t floor : BlockPtr} : ∀ (fuel : ℕ) (s : ChainState),
    Selecting verdict Wanted s t floor → s.setBlockIndexCandidates.length < fuel →
      ∃ m s', findMostWorkChainLoop fuel s = (some m, s') ∧ (∀ v, Evolves v s s') ∧
        Selecting verdict Wanted s' t floor ∧
        (∀ c ∈ s.setBlockIndexCandidates, c ∈ s'.setBlockIndexCandidates ∨ s'.failed c = true) ∧
        m ∈ s'.setBlockIndexCandidates ∧
        (∀ c ∈ s'.setBlockIndexCandidates, ¬ s'.less m c = true) ∧ s'.Usable m := by
  intro fuel
  induction fuel with
  | zero =>
    intro s _ hlen
    omega
  | succ fuel ih =>
    intro s h hlen
    simp only [findMostWorkChainLoop]
    rcases hm : s.bestCandidate with - | m
    · -- the floor is a candidate
      have hmem := h.floor_mem
      rw [bestCandidate_eq_none hm] at hmem
      cases hmem
    obtain ⟨hmem, hmax⟩ := bestCandidate_eq_some hm
    rcases hu : s.findUnusable [] (s.line m) with - | ⟨passed, x⟩
    · refine ⟨m, s, ?_, fun _ => .refl s, h, fun c hc => .inl hc, hmem, hmax, ?_⟩
      · dsimp only
        rw [hu]
      · obtain ⟨pre, post, hsplit, hpre, hpost⟩ := findUnusable_eq_none _ _ hu
        intro a ha
        rw [hsplit] at ha
        rcases List.mem_append.mp ha with hap | hap
        · exact hpre a hap
        · -- from the active chain down everything is usable anyway
          rcases post with - | ⟨q, post⟩
          · cases hap
          · have hq := h.active.contains_iff.mp (hpost q (by simp))
            obtain ⟨hline, -⟩ := line_split s.tree.graded hsplit
            rw [← hline] at hap
            exact h.tip_ok.1 a (BlockTree.mem_line_trans hap hq)
    · dsimp only
      rw [hu]
      dsimp only
      obtain ⟨pre, post, hsplit, hpre, hbad⟩ := findUnusable_eq_some _ _ hu
      rw [List.nil_append] at hpre
      subst hpre
      have hx : x ∈ s.line m := by
        rw [hsplit]
        exact List.mem_append_right _ List.mem_cons_self
      have hf : s.failed x = true := by
        rcases hbad with hf | hd
        · exact hf
        · rw [(h.candidate m hmem).2 x hx] at hd
          cases hd
      obtain ⟨hline, hpassed⟩ := line_split s.tree.graded hsplit
      have hevs : ∀ v, Evolves v s (s.removeChain passed x) :=
        fun v => (removeChain_spec v hf hpassed).1
      have hev := hevs verdict
      obtain ⟨-, hv, hrem, hlt⟩ := removeChain_spec verdict hf hpassed
      have hmin : m ∈ passed ++ [x] := by
        have hhead := head?_line s.tree.graded m
        rw [show ParentTree.line s.tree.pprev s.tree.nHeight m = passed ++ x :: post from hsplit]
          at hhead
        rcases passed with - | ⟨c, cs⟩
        · obtain rfl := Option.some.inj hhead
          exact List.mem_singleton_self x
        · obtain rfl := Option.some.inj hhead
          exact List.mem_cons_self
      have hfloor : floor ∈ (s.removeChain passed x).setBlockIndexCandidates := by
        rcases hrem floor h.floor_mem with hc | hfail
        · exact hc
        · have hgood := ((hev.connectable h.floor_ok).1 floor (BlockTree.mem_line_self _ _)).1
          rw [hfail] at hgood
          cases hgood
      have hactive : (s.removeChain passed x).Active t := by
        show (s.removeChain passed x).vChain = _
        rw [hv, hev.line_eq]
        exact h.active
      have hsel := h.evolve hev hactive h.tip_mem h.tip_ok h.floor_ok hfloor (less_irrefl floor)
        fun c hc => (hrem c hc).imp_right .inl
      obtain ⟨m', s', hr, hev', hsel', hrem', hrest⟩ := ih _ hsel (by
        have := hlt m hmem hmin
        omega)
      refine ⟨m', s', hr, fun v => (hevs v).trans (hev' v), hsel', fun c hc => ?_, hrest⟩
      rcases hrem c hc with hc' | hf'
      · exact hrem' c hc'
      · exact .inr ((hev' verdict).failed_mono hf')

end ChainState

end Stonecoin
