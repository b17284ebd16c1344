/-
`CheckBlockIndex` of `main.cpp`, and what `ActivateBestChain` does to an index that passes
it.

The check looks at every entry together with its line: a variable `pindexFirst…` is the
oldest block of the line with a property.  Blocks have never been pruned, there is a tip,
and the hash of the genesis block is not looked at.

  * `activateBestChain_best`: the best valid chain becomes active, if the chain that is
                               active at first has data and no failure bit.
-/
import Stonecoin.BestTip

namespace Stonecoin

def BLOCK_VALID_CHAIN : ℕ := 4

namespace ChainState

open ParentTree Runs

def firstOnLine (s : ChainState) (P : BlockPtr → Bool) (b : BlockPtr) : Option BlockPtr :=
  (s.line b).reverse.find? P

def notValid (s : ChainState) (level : ℕ) (b : BlockPtr) : Bool :=
  (s.tree.pprev b).isSome && decide ((s.node b).nStatus.valid < level)

/-- The assertions about the failure bits and the candidate set. -/
def checkCandidate (s : ChainState) (tip b : BlockPtr) : Bool :=
  let pindexFirstInvalid := s.firstOnLine (fun a => (s.node a).nStatus.failedValid) b
  let pindexFirstMissing := s.firstOnLine (fun a => !(s.node a).nStatus.haveData) b
  let pindexFirstNeverProcessed := s.firstOnLine (fun a => (s.node a).nTx = 0) b
  (pindexFirstInvalid.isSome || !s.failed b) &&
    if !s.less b tip && pindexFirstNeverProcessed.isNone then
      pindexFirstInvalid.isSome || !(pindexFirstMissing.isNone || b = tip) ||
        decide (b ∈ s.setBlockIndexCandidates)
    else decide (b ∉ s.setBlockIndexCandidates)

def checkUnlinked (s : ChainState) (b : BlockPtr) : Bool :=
  let pindexFirstInvalid := s.firstOnLine (fun a => (s.node a).nStatus.failedValid) b
  let pindexFirstMissing := s.firstOnLine (fun a => !(s.node a).nStatus.haveData) b
  let pindexFirstNeverProcessed := s.firstOnLine (fun a => (s.node a).nTx = 0) b
  let haveData := (s.node b).nStatus.haveData
  let foundInUnlinked :=
    match s.tree.pprev b with
    | none => false
    | some p => decide ((p, b) ∈ s.mapBlocksUnlinked)
  (!((s.tree.pprev b).isSome && haveData && pindexFirstNeverProcessed.isSome &&
      pindexFirstInvalid.isNone) || foundInUnlinked) &&
    (haveData || !foundInUnlinked) &&
    (pindexFirstMissing.isSome || !foundInUnlinked) &&
    -- this would need pruning
    !((s.tree.pprev b).isSome && haveData && pindexFirstNeverProcessed.isNone &&
      pindexFirstMissing.isSome)

def checkEntry (s : ChainState) (tip b : BlockPtr) : Bool :=
  let e := s.node b
  let pindexFirstMissing := s.firstOnLine (fun a => !(s.node a).nStatus.haveData) b
  let pindexFirstNeverProcessed := s.firstOnLine (fun a => (s.node a).nTx = 0) b
  ((s.tree.pprev b).isSome || s.vChain[0]? = some (some b)) &&
    (e.nChainTx ≠ 0 || e.nSequenceId = 0) &&
    (!e.nStatus.haveData) = decide (e.nTx = 0) &&
    pindexFirstMissing = pindexFirstNeverProcessed &&
    (!e.nStatus.haveUndo || e.nStatus.haveData) &&
    decide (BLOCK_VALID_TRANSACTIONS ≤ e.nStatus.valid) = decide (0 < e.nTx) &&
    pindexFirstNeverProcessed.isSome = decide (e.nChainTx = 0) &&
    (s.firstOnLine (s.notValid BLOCK_VALID_TRANSACTIONS) b).isSome = decide (e.nChainTx = 0) &&
    (match s.tree.pprev b with
      | none => true
      | some p => s.tree.nChainWork p ≤ s.tree.nChainWork b) &&
    (s.tree.nHeight b < 2 ||
      match s.tree.pskip b with
      | none => false
      | some a => s.tree.nHeight a < s.tree.nHeight b) &&
    (s.firstOnLine (s.notValid BLOCK_VALID_TREE) b).isNone &&
    (e.nStatus.valid < BLOCK_VALID_CHAIN ||
      (s.firstOnLine (s.notValid BLOCK_VALID_CHAIN) b).isNone) &&
    (e.nStatus.valid < BLOCK_VALID_SCRIPTS ||
      (s.firstOnLine (s.notValid BLOCK_VALID_SCRIPTS) b).isNone) &&
    s.checkCandidate tip b && s.checkUnlinked b

def checkBlockIndex (s : ChainState) : Bool :=
  match s.tip with
  | none => s.tree.mapBlockIndex.length ≤ 1
  | some tip =>
    -- there is only one index entry with parent `NULL`
    (s.tree.mapBlockIndex.filter fun b => s.tree.pprev b = none).length = 1 &&
      s.tree.mapBlockIndex.all (s.checkEntry tip)

/-! ### What the check says -/

variable {verdict : BlockPtr → ConnectVerdict} {s s' : ChainState} {t t' b tip : BlockPtr}

theorem firstOnLine_isNone {P : BlockPtr → Bool} :
    (s.firstOnLine P b).isNone = true ↔ ∀ a ∈ s.line b, P a = false := by
  unfold firstOnLine
  rw [Option.isNone_iff_eq_none, List.find?_eq_none]
  constructor
  · intro h a ha
    exact Bool.eq_false_iff.mpr (h a (List.mem_reverse.mpr ha))
  · intro h a ha
    exact Bool.eq_false_iff.mp (h a (List.mem_reverse.mp ha))

theorem checkEntry_haveData (h : s.checkEntry tip b = true) :
    (s.node b).nStatus.haveData = true ↔ (s.node b).nTx ≠ 0 := by
  simp only [checkEntry, Bool.and_eq_true, decide_eq_true_eq] at h
  have hdata := h.1.1.1.1.1.1.1.1.1.1.1.1.2
  rcases hd : (s.node b).nStatus.haveData with - | - <;> simp_all

theorem checkEntry_candidate (h : s.checkEntry tip b = true) : s.checkCandidate tip b = true := by
  simp only [checkEntry, Bool.and_eq_true] at h
  exact h.1.2

theorem checkEntry_sound (h : s.checkEntry tip b = true) (hb : b ∈ s.setBlockIndexCandidates) :
    ∀ a ∈ s.line b, (s.node a).nTx ≠ 0 := by
  have hc := checkEntry_candidate h
  unfold checkCandidate at hc
  rw [Bool.and_eq_true] at hc
  rcases hn : (s.firstOnLine (fun a => decide ((s.node a).nTx = 0)) b).isNone with - | -
  · rw [hn] at hc
    simp [hb] at hc
  · intro a ha
    simpa using firstOnLine_isNone.mp hn a ha

theorem checkEntry_complete (h : ∀ a ∈ s.line b, s.checkEntry tip a = true) (hu : s.Usable b)
    (hl : ¬ s.less b tip = true) : b ∈ s.setBlockIndexCandidates := by
  have hself := s.tree.mem_line_self b
  have hc := checkEntry_candidate (h b hself)
  have hvalid : (s.firstOnLine (fun a => (s.node a).nStatus.failedValid) b).isNone = true := by
    apply firstOnLine_isNone.mpr
    intro a ha
    have hf := (hu a ha).1
    unfold failed BlockStatus.failed at hf
    exact (Bool.or_eq_false_iff.mp hf).1
  have hmissing : (s.firstOnLine (fun a => !(s.node a).nStatus.haveData) b).isNone = true := by
    apply firstOnLine_isNone.mpr
    intro a ha
    rw [(hu a ha).2]
    rfl
  have hprocessed : (s.firstOnLine (fun a => decide ((s.node a).nTx = 0)) b).isNone = true := by
    apply firstOnLine_isNone.mpr
    intro a ha
    simpa using (checkEntry_haveData (h a ha)).mp (hu a ha).2
  unfold checkCandidate at hc
  rw [Bool.and_eq_true] at hc
  rw [Option.isNone_iff_eq_none] at hvalid hmissing hprocessed
  rw [hvalid, hmissing, hprocessed] at hc
  simpa [hl] using hc.2

theorem checkBlockIndex_oneRoot (htip : s.tip = some tip) (h : s.checkBlockIndex = true) :
    OneRoot s.tree := by
  unfold checkBlockIndex at h
  rw [htip] at h
  obtain ⟨h, -⟩ := Bool.and_eq_true_iff.mp h
  obtain ⟨g, hg⟩ := List.length_eq_one_iff.mp (of_decide_eq_true h)
  refine ⟨g, fun b hb => ?_⟩
  -- the lowest block of a line is a root
  obtain ⟨r, hr, hh⟩ := exists_mem_line s.tree.graded (b := b) (n := 0) (Nat.zero_le _)
  have hroot : s.tree.pprev r = none := by
    rcases hp : s.tree.pprev r with - | p
    · rfl
    · have hc := s.tree.graded.child r p hp
      omega
  have hmem : r ∈ s.tree.mapBlockIndex.filter fun b => s.tree.pprev b = none :=
    List.mem_filter.mpr ⟨BlockTree.mem_of_mem_line hb hr, by simpa using hroot⟩
  rw [hg] at hmem
  rwa [← List.mem_singleton.mp hmem]

theorem checkBlockIndex_entry (htip : s.tip = some tip) (h : s.checkBlockIndex = true)
    (hb : b ∈ s.tree.mapBlockIndex) : s.checkEntry tip b = true := by
  unfold checkBlockIndex at h
  rw [htip] at h
  obtain ⟨-, h⟩ := Bool.and_eq_true_iff.mp h
  exact List.all_eq_true.mp h b hb

/-! ### The best chain -/

/-- **An index that passes the check is ready for the selection**, when its active chain is
usable and connects. -/
theorem checkBlockIndex_selecting (h : s.checkBlockIndex = true)
    (hc : ∀ c ∈ s.setBlockIndexCandidates, c ∈ s.tree.mapBlockIndex) (hactive : s.Active t)
    (ht : t ∈ s.tree.mapBlockIndex) (hok : s.Connectable verdict t) :
    Selecting verdict (fun b => b ∈ s.tree.mapBlockIndex ∧ s.Usable b) s t t := by
  have hentry : ∀ b ∈ s.tree.mapBlockIndex, s.checkEntry t b = true :=
    fun b hb => checkBlockIndex_entry hactive.tip_eq h hb
  have hline : ∀ b ∈ s.tree.mapBlockIndex, ∀ a ∈ s.line b, s.checkEntry t a = true :=
    fun b hb a ha => hentry a (BlockTree.mem_of_mem_line hb ha)
  refine ⟨checkBlockIndex_oneRoot hactive.tip_eq h, hactive, ht, hok, hok, ?_, fun c hcs => ?_,
    fun b hb hu => ⟨hb, hu⟩, fun b ⟨hb, hu⟩ _ hl => ?_⟩
  · exact checkEntry_complete (hline t ht) hok.1 (less_irrefl t)
  · refine ⟨hc c hcs, fun a ha => ?_⟩
    exact (checkEntry_haveData (hline c (hc c hcs) a ha)).mpr
      (checkEntry_sound (hentry c (hc c hcs)) hcs a ha)
  · exact checkEntry_complete (hline b hb) hu hl

/-- **`ActivateBestChain` selects the best valid chain.**  Every number of passes from
`passBound` on gives the same result, and after any number of them only valid blocks are
active and only invalid ones have been marked. -/
theorem activateBestChain_best (h : s.checkBlockIndex = true)
    (hc : ∀ c ∈ s.setBlockIndexCandidates, c ∈ s.tree.mapBlockIndex) (hactive : s.Active t)
    (ht : t ∈ s.tree.mapBlockIndex) (hu : s.Usable t) (hv : ∀ a ∈ s.line t, verdict a = .valid)
    (hd : Decided verdict) :
    (∃ s' t', (∀ fuel, s.passBound ≤ fuel →
          s.activateBestChain verdict fuel = some (true, s')) ∧
        (∃ es, Run (Pass verdict) s es s') ∧
        s'.Active t' ∧ t' ∈ s.tree.mapBlockIndex ∧ s.Connectable verdict t' ∧
        (∀ b ∈ s.tree.mapBlockIndex, s.Connectable verdict b → ¬ s.less t' b = true) ∧
        ∀ b, s'.Connectable verdict b ↔ s.Connectable verdict b) ∧
      ∀ es s', Run (Pass verdict) s es s' →
        (∃ t', s'.Active t' ∧ t' ∈ s.tree.mapBlockIndex ∧ ∀ a ∈ s.line t', verdict a = .valid) ∧
        ∀ b, (s'.node b).nStatus.failedValid = true →
          (s.node b).nStatus.failedValid = true ∨ verdict b = .invalid false := by
  have hsel := checkBlockIndex_selecting h hc hactive ht (show s.Connectable verdict t from ⟨hu, hv⟩)
  constructor
  · obtain ⟨s', t', floor', hr, hev, hsel', hmax⟩ :=
      activateBestChain_selects hd s.passBound s t t hsel (measure_lt_passBound s t)
    have hback : ∀ b, s'.Connectable verdict b ↔ s.Connectable verdict b := by
      intro b
      refine ⟨fun hb => ⟨hev.usable_of hb.1, fun a ha => ?_⟩, fun hb => hev.connectable hb⟩
      apply hb.2
      rw [hev.line_eq]
      exact ha
    refine ⟨s', t', fun fuel hle => activateBestChain_mono hr hle, activateBestChain_run hr,
      hsel'.active, hev.tree ▸ hsel'.tip_mem, (hback t').mp hsel'.tip_ok, fun b hb hok => ?_,
      hback⟩
    -- the floor is a candidate, and what is no worse than the floor is one too
    have hb' := (hback b).mpr hok
    rw [← hev.less_eq]
    by_cases hl : s'.less b floor' = true
    · intro htb
      exact hmax floor' hsel'.floor_mem (less_trans htb hl)
    · exact hmax b (hsel'.complete b ⟨hb, hok.1⟩ (hb'.1 b (s'.tree.mem_line_self b)).1 hl)
  · intro es s' hrun
    obtain ⟨hev, t', floor', hsel'⟩ := passes_selecting hrun hsel
    refine ⟨⟨t', hsel'.active, hev.tree ▸ hsel'.tip_mem, fun a ha => ?_⟩, hev.newValid⟩
    apply hsel'.tip_ok.2
    rw [hev.line_eq]
    exact ha

/-! ### A fork -/

/-- Genesis and two blocks on top of it, the second with more work. -/
def forkTree : BlockTree where
  mapBlockIndex := [⟨0⟩, ⟨1⟩, ⟨2⟩]
  pprev b := if b.addr = 1 ∨ b.addr = 2 then some ⟨0⟩ else none
  pskip b := if b.addr = 1 ∨ b.addr = 2 then some ⟨0⟩ else none
  nHeight b := if b.addr = 1 ∨ b.addr = 2 then 1 else 0
  nChainWork b := b.addr + 1
  graded := by
    constructor
    · intro b hb
      split at hb
      next => cases hb
      next h => exact if_neg h
    · intro b p hb
      split at hb
      next h =>
        obtain rfl := Option.some.inj hb
        exact if_pos h
      next => cases hb
  indexed := by
    rintro ⟨n⟩ p hb
    split at hb
    next h =>
      obtain rfl := Option.some.inj hb
      rcases h with h | h <;> simp_all
    next => cases hb
  skip := by
    intro b p hb
    split at hb
    next h =>
      obtain rfl := Option.some.inj hb
      refine ⟨⟨0⟩, by decide +kernel, if_pos h, ?_⟩
      rw [if_pos h]
      decide +kernel
    next => cases hb

/-- The first block is the tip, and is not to be used any more; of the second there is only
the header. -/
def failedTip : ChainState where
  tree := forkTree
  node b :=
    if b.addr = 0 then ⟨1, 1, ⟨3, true, false, false, false⟩, 0⟩
    else if b.addr = 1 then ⟨1, 2, ⟨5, true, true, true, false⟩, 1⟩
    else ⟨0, 0, ⟨2, false, false, false, false⟩, 0⟩
  vChain := [some ⟨0⟩, some ⟨1⟩]
  setBlockIndexCandidates := []
  mapBlocksUnlinked := []
  nBlockSequenceId := 2

/-- **A tip with a failure bit passes the check**, and `ActivateBestChain` leaves it where it
is, though genesis is usable. -/
theorem activateBestChain_keeps_failed_tip :
    failedTip.checkBlockIndex = true ∧ failedTip.Active ⟨1⟩ ∧
      (∀ fuel, failedTip.activateBestChain (fun _ => .valid) (fuel + 1) = some (true, failedTip)) ∧
      failedTip.failed ⟨1⟩ = true ∧ ¬ failedTip.Connectable (fun _ => .valid) ⟨1⟩ ∧
      failedTip.Connectable (fun _ => .valid) ⟨0⟩ := by
  refine ⟨by decide +kernel, by unfold Active; decide +kernel, fun _ => rfl, by decide +kernel,
    fun h => ?_, ⟨by unfold Usable; decide +kernel, fun _ _ => rfl⟩⟩
  have hf := (h.1 ⟨1⟩ (by decide +kernel)).1
  revert hf
  decide +kernel

/-- The first block is the tip, and the second has been received. -/
def forkState : ChainState where
  tree := forkTree
  node b :=
    if b.addr = 0 then ⟨1, 1, ⟨3, true, false, false, false⟩, 0⟩
    else if b.addr = 1 then ⟨1, 2, ⟨5, true, true, false, false⟩, 1⟩
    else ⟨1, 2, ⟨3, true, false, false, false⟩, 2⟩
  vChain := [some ⟨0⟩, some ⟨1⟩]
  setBlockIndexCandidates := [⟨1⟩, ⟨2⟩]
  mapBlocksUnlinked := []
  nBlockSequenceId := 3

def forkVerdict (b : BlockPtr) : ConnectVerdict := if b.addr = 2 then .invalid false else .valid

theorem activateBestChain_best_fork :
    ∃ s' t', forkState.activateBestChain forkVerdict forkState.passBound = some (true, s') ∧
      s'.Active t' ∧ forkState.Connectable forkVerdict t' ∧
      ∀ b ∈ forkTree.mapBlockIndex, forkState.Connectable forkVerdict b →
        ¬ forkState.less t' b = true := by
  have hd : Decided forkVerdict := by
    intro b
    unfold forkVerdict
    split
    · exact .inr rfl
    · exact .inl rfl
  obtain ⟨⟨s', t', hr, -, hactive, -, hok, hbest, -⟩, -⟩ :=
    activateBestChain_best (s := forkState) (t := ⟨1⟩) (by decide +kernel) (by decide +kernel)
      (by unfold Active; decide +kernel) (by decide +kernel) (by unfold Usable; decide +kernel)
      (by decide +kernel) hd
  exact ⟨s', t', hr _ (Nat.le_refl _), hactive, hok, hbest⟩

end ChainState

end Stonecoin
