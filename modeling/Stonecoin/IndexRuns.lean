/-
Runs of the block index: headers, received blocks, the selection of the best chain,
`InvalidateBlock` and `ReconsiderBlock`, in any order, from an index with genesis alone.

  * `blockIndex_consistent`: the assertions of `CheckBlockIndex` hold in every state, in runs
                              whose events meet `Safe`;
  * `reconsider_leaves_failedChild`: a run that ends with a failure bit without a reason.
-/
import Stonecoin.LinkBlocks
import Stonecoin.FailureBits

namespace Stonecoin

namespace ChainState

open ParentTree Runs

inductive IndexEvent where
  /-- `AddToBlockIndex` for a header with parent `p`. -/
  | header (b p : BlockPtr) (proof : ℕ)
  /-- `ReceivedBlockTransactions`. -/
  | received (b : BlockPtr) (nTx : ℕ)
  /-- One pass of `ActivateBestChain`, before it releases the lock. -/
  | pass
  /-- A whole call of `ActivateBestChain`. -/
  | activate
  /-- `InvalidateBlock`. -/
  | invalidate (b : BlockPtr)
  /-- `ReconsiderBlock`. -/
  | reconsider (p : BlockPtr)

variable (verdict : BlockPtr → ConnectVerdict)

def step (s : ChainState) : IndexEvent → ChainState
  | .header b p proof => s.addToBlockIndex b p proof
  | .received b nTx => s.receivedBlockTransactions b nTx
  | .pass => (s.activatePass verdict).2
  | .activate =>
    match s.activateBestChain verdict s.passBound with
    | none => s
    | some (_, s) => s
  | .invalidate b => s.invalidateBlock b
  | .reconsider p => s.reconsiderBlock p

/-- What the callers see to: `AcceptBlockHeader` that the parent has not failed and that
there is work, `AcceptBlock` that the block has not failed and has no data yet.  A whole call
of `ActivateBestChain` is one event where every block either connects or is invalid. -/
def Offered (s : ChainState) : IndexEvent → Prop
  | .header _ p proof => p ∈ s.tree.mapBlockIndex ∧ s.failed p = false ∧ 0 < proof
  | .received b nTx => b ∈ s.tree.mapBlockIndex ∧ (s.node b).nStatus.haveData = false ∧
      s.failed b = false ∧ 0 < nTx
  | .pass => True
  | .activate => Decided verdict
  | .invalidate b => b ∈ s.tree.mapBlockIndex
  | .reconsider p => p ∈ s.tree.mapBlockIndex

/-- The condition under which an event keeps the index consistent. -/
def Safe (s : ChainState) : IndexEvent → Prop
  | .header _ p proof => s.tree.nChainWork p + proof < 2 ^ 256
  | .received b nTx =>
      (∀ c ∈ s.tree.mapBlockIndex, b ∈ s.line c → (s.setReceived b nTx).chainSum c < 2 ^ 32) ∧
      ∀ p, s.tree.pprev b = some p → (s.node p).nChainTx ≠ 0 ∨ s.failed p = false
  | .pass => FallsBackSafely verdict s
  | .activate => True
  | .invalidate b => s.tree.pprev b ≠ none
  | .reconsider p => Reconsiderable s p

def genesisTree (g : BlockPtr) (proof : ℕ) : BlockTree where
  mapBlockIndex := [g]
  pprev _ := none
  pskip _ := none
  nHeight _ := 0
  nChainWork b := if b = g then proof else 0
  graded := ⟨fun _ _ => rfl, fun _ _ h => by cases h⟩
  indexed := fun _ _ h => by cases h
  skip := fun _ _ h => by cases h

/-- Genesis has been received and is the tip. -/
def genesisState (g : BlockPtr) (proof : ℕ) : ChainState where
  tree := genesisTree g proof
  node b :=
    if b = g then ⟨1, 1, ⟨BLOCK_VALID_TRANSACTIONS, true, false, false, false⟩, 1⟩
    else CBlockIndex.null
  vChain := [some g]
  setBlockIndexCandidates := [g]
  mapBlocksUnlinked := []
  nBlockSequenceId := 2

variable {verdict} {s s' : ChainState}

theorem genesisState_ok {g : BlockPtr} (hg : verdict g = .valid) (proof : ℕ) :
    IndexOk verdict (genesisState g proof) := by
  have hline : ∀ b, (genesisState g proof).line b = [b] := fun b => rfl
  have hnode : (genesisState g proof).node g
      = ⟨1, 1, ⟨BLOCK_VALID_TRANSACTIONS, true, false, false, false⟩, 1⟩ := if_pos rfl
  have hfailed : (genesisState g proof).failed g = false := by
    unfold failed
    rw [hnode]
    rfl
  have hsum : (genesisState g proof).chainSum g = 1 := by
    unfold chainSum
    rw [hline, List.map_singleton, hnode]
    rfl
  refine ⟨g, ⟨?_, fun q hq => (by cases hq), fun p b h => (by cases h), ?_, List.nodup_nil⟩, ?_⟩
  · constructor
    all_goals
      intro b hb
      obtain rfl := List.mem_singleton.mp hb
    · rw [hnode]
      simp
    · rw [hnode]
      decide
    · rw [hnode]
      exact fun _ => Nat.le_refl _
    · rw [hsum]
      decide
    · rw [hnode, hsum]
      exact fun _ => rfl
    · rw [hnode]
      exact fun _ => Nat.one_ne_zero
    · exact fun _ p hp => by cases hp
  · intro b hb _ h0
    obtain rfl := List.mem_singleton.mp hb
    rw [hnode] at h0
    cases h0
  · constructor
    · exact ⟨g, fun b hb => (List.mem_singleton.mp hb) ▸ (genesisTree g proof).mem_line_self _⟩
    · exact fun b p hp => by cases hp
    · rfl
    · exact List.mem_singleton_self g
    · constructor
      · intro a ha
        obtain rfl := List.mem_singleton.mp (hline g ▸ ha)
        rw [hnode]
        exact ⟨hfailed, rfl⟩
      · intro a ha
        obtain rfl := List.mem_singleton.mp (hline g ▸ ha)
        exact hg
    · rw [hnode]
      exact Nat.one_ne_zero
    · intro b hb hf
      obtain rfl := List.mem_singleton.mp hb
      rw [hfailed] at hf
      cases hf
    · intro c hc
      obtain rfl := List.mem_singleton.mp hc
      rw [hnode]
      exact ⟨List.mem_singleton_self c, Nat.one_ne_zero, less_irrefl c⟩
    · intro b hb _ _ _
      exact hb

theorem IndexOk.step {e : IndexEvent} (h : IndexOk verdict s) (ho : Offered verdict s e)
    (hs : Safe verdict s e) : IndexOk verdict (step verdict s e) := by
  cases e with
  | header b p proof =>
    obtain ⟨hp, -, hproof⟩ := ho
    by_cases hb : b ∈ s.tree.mapBlockIndex
    · -- the header is known
      have hsame : s.addToBlockIndex b p proof = s := dif_neg (not_not.mpr hb)
      show IndexOk verdict (s.addToBlockIndex b p proof)
      rw [hsame]
      exact h
    · exact h.header hb hp hproof hs
  | received b nTx =>
    obtain ⟨hb, hd, hf, hn⟩ := ho
    exact h.received ⟨hb, hd, hf, hn, hs.1⟩ hs.2
  | pass => exact h.pass hs
  | activate =>
    obtain ⟨s', hr, h'⟩ := h.activate ho
    show IndexOk verdict (match s.activateBestChain verdict s.passBound with
      | none => s
      | some (_, s) => s)
    rw [hr]
    exact h'
  | invalidate b => exact h.invalidate hs
  | reconsider p => exact h.reconsider hs

/-- **The block index stays consistent**, in every run whose events are offered by their
callers and meet `Safe`. -/
theorem blockIndex_consistent {g : BlockPtr} {proof : ℕ} {es : List IndexEvent}
    (hg : verdict g = .valid)
    (hrun : Run (Guarded (fun s e => Offered verdict s e ∧ Safe verdict s e) (step verdict))
      (genesisState g proof) es s) :
    ∃ tip, s.tip = some tip ∧ s.Consistent tip := by
  have hok : IndexOk verdict s := by
    refine hrun.invariant ?_ (genesisState_ok hg proof)
    rintro s₁ e s₂ h ⟨⟨ho, hs⟩, rfl⟩
    exact h.step ho hs
  exact hok.consistent

/-- A block on genesis is received, becomes the tip, and is invalidated. -/
theorem blockIndex_consistent_invalidate :
    ∃ tip, ([.header ⟨1⟩ ⟨0⟩ 1, .received ⟨1⟩ 1, .activate, .invalidate ⟨1⟩].foldl
        (step fun _ => .valid) (genesisState ⟨0⟩ 1)).tip = some tip ∧
      ([.header ⟨1⟩ ⟨0⟩ 1, .received ⟨1⟩ 1, .activate, .invalidate ⟨1⟩].foldl
        (step fun _ => .valid) (genesisState ⟨0⟩ 1)).Consistent tip := by
  refine blockIndex_consistent (g := ⟨0⟩) rfl (Run.of_admits ?_)
  simp only [Admits]
  refine ⟨⟨?_, ?_⟩, ⟨?_, ?_, ?_⟩, ⟨?_, trivial⟩, ⟨?_, ?_⟩, trivial⟩
  · show _ ∧ _ ∧ _
    decide +kernel
  · show _ < _
    decide +kernel
  · show _ ∧ _ ∧ _ ∧ _
    decide +kernel
  · decide +kernel
  · intro p hp
    obtain rfl := Option.some.inj hp
    exact .inl (by decide +kernel)
  · exact fun _ => .inl rfl
  · show _ ∈ _
    decide +kernel
  · show _ ≠ _
    decide +kernel

/-! ### What goes wrong otherwise -/

/-- The block 1 has two branches, 2 and 3.  When it has been invalidated the selection marks
3 as the child of a failed block; then 2 is reconsidered, which frees 1 and 2. -/
def siblingEvents : List IndexEvent :=
  [.header ⟨1⟩ ⟨0⟩ 5, .header ⟨2⟩ ⟨1⟩ 5, .header ⟨3⟩ ⟨1⟩ 3,
    .received ⟨1⟩ 1, .received ⟨2⟩ 1, .received ⟨3⟩ 1, .activate,
    .invalidate ⟨1⟩, .activate, .reconsider ⟨2⟩]

/-- **`ReconsiderBlock` leaves a failure bit without a reason** on the branch beside. -/
theorem reconsider_leaves_failedChild :
    ∃ s, Run (Guarded (Offered fun _ => .valid) (step fun _ => .valid)) (genesisState ⟨0⟩ 1)
        siblingEvents s ∧
      s.failed ⟨3⟩ = true ∧ (∀ a ∈ s.line ⟨3⟩, (s.node a).nStatus.failedValid = false) ∧
      ¬ ∃ tip, s.tip = some tip ∧ s.Consistent tip := by
  have hfailed : (siblingEvents.foldl (step fun _ => .valid) (genesisState ⟨0⟩ 1)).failed ⟨3⟩
      = true := by decide +kernel
  have hline : ∀ a ∈ (siblingEvents.foldl (step fun _ => .valid) (genesisState ⟨0⟩ 1)).line ⟨3⟩,
      ((siblingEvents.foldl (step fun _ => .valid) (genesisState ⟨0⟩ 1)).node a
        ).nStatus.failedValid = false := by decide +kernel
  refine ⟨_, Run.of_admits ?_, hfailed, hline, ?_⟩
  · have hd : Decided fun _ => .valid := fun _ => .inl rfl
    simp only [siblingEvents, Admits]
    refine ⟨?_, ?_, ?_, ?_, ?_, ?_, hd, ?_, hd, ?_, trivial⟩
    · show _ ∧ _ ∧ _
      decide +kernel
    · show _ ∧ _ ∧ _
      decide +kernel
    · show _ ∧ _ ∧ _
      decide +kernel
    · show _ ∧ _ ∧ _ ∧ _
      decide +kernel
    · show _ ∧ _ ∧ _ ∧ _
      decide +kernel
    · show _ ∧ _ ∧ _ ∧ _
      decide +kernel
    · show _ ∈ _
      decide +kernel
    · show _ ∈ _
      decide +kernel
  · rintro ⟨tip, -, hc⟩
    have hidx : (⟨3⟩ : BlockPtr) ∈ (siblingEvents.foldl (step fun _ => .valid)
        (genesisState ⟨0⟩ 1)).tree.mapBlockIndex := by decide +kernel
    obtain ⟨a, ha, hv⟩ := hc.failed ⟨3⟩ hidx hfailed
    rw [hline a ha] at hv
    cases hv

end ChainState

end Stonecoin
