/-
What else changes the block index: `AddToBlockIndex`, `ReceivedBlockTransactions`,
`InvalidateBlock` and `ReconsiderBlock` of `main.cpp`.

A new entry is a pointer that is not in the index yet.  `DisconnectTip` succeeds, as in
`ActivateBestChain`, and where a block lies on disk is not part of an entry.
-/
import Stonecoin.BestTip

namespace Stonecoin

open ParentTree

/-! ### `AddToBlockIndex` -/

namespace BlockTree

variable (t : BlockTree) (b p : BlockPtr)

theorem graded_insert (hb : b ∉ t.mapBlockIndex) (hp : p ∈ t.mapBlockIndex) :
    Graded (Function.update t.pprev b (some p)) (Function.update t.nHeight b (t.nHeight p + 1)) := by
  have hpb : p ≠ b := fun he => hb (he ▸ hp)
  constructor
  · intro c hc
    rcases eq_or_ne c b with rfl | hcb
    · rw [Function.update_self] at hc
      cases hc
    · rw [Function.update_of_ne hcb] at hc ⊢
      exact t.graded.root c hc
  · intro c q hc
    rcases eq_or_ne c b with rfl | hcb
    · rw [Function.update_self] at hc
      obtain rfl := Option.some.inj hc
      rw [Function.update_self, Function.update_of_ne hpb]
    · rw [Function.update_of_ne hcb] at hc ⊢
      have hq : q ≠ b := fun he => hb (he ▸ (t.indexed c q hc).2)
      rw [Function.update_of_ne hq]
      exact t.graded.child c q hc

variable {b p}

theorem line_update (hb : b ∉ t.mapBlockIndex) (hp : p ∈ t.mapBlockIndex) {c : BlockPtr}
    (hc : c ≠ b) :
    ParentTree.line (Function.update t.pprev b (some p))
      (Function.update t.nHeight b (t.nHeight p + 1)) c = t.line c := by
  apply line_congr t.graded (graded_insert t b p hb hp)
  intro a ha
  apply Function.update_of_ne
  rintro rfl
  -- below the new entry there is nothing yet
  rcases (mem_line_iff t.graded).mp ha with rfl | ⟨q, hq, haq⟩
  · exact hc rfl
  · exact hb (mem_of_mem_line (t.indexed c q hq).2 haq)

variable (b p)

/-- The tree with a new entry `b` on top of `p`; `BuildSkip` looks for the ancestor of
`p`. -/
def insert (proof : ℕ) (hb : b ∉ t.mapBlockIndex) (hp : p ∈ t.mapBlockIndex) : BlockTree where
  mapBlockIndex := b :: t.mapBlockIndex
  pprev := Function.update t.pprev b (some p)
  pskip := Function.update t.pskip b (t.getAncestor p (getSkipHeight (t.nHeight p + 1)))
  nHeight := Function.update t.nHeight b (t.nHeight p + 1)
  nChainWork := Function.update t.nChainWork b ((t.nChainWork p + proof) % 2 ^ 256)
  graded := graded_insert t b p hb hp
  indexed := by
    intro c q hc
    rcases eq_or_ne c b with rfl | hcb
    · rw [Function.update_self] at hc
      obtain rfl := Option.some.inj hc
      exact ⟨List.mem_cons_self, List.mem_cons_of_mem c hp⟩
    · rw [Function.update_of_ne hcb] at hc
      exact ⟨List.mem_cons_of_mem b (t.indexed c q hc).1,
        List.mem_cons_of_mem b (t.indexed c q hc).2⟩
  skip := by
    intro c q hc
    have hpb : p ≠ b := fun he => hb (he ▸ hp)
    rcases eq_or_ne c b with rfl | hcb
    · rw [Function.update_self] at hc
      obtain rfl := Option.some.inj hc
      have hlt := getSkipHeight_lt (h := t.nHeight p + 1) (Nat.succ_pos _)
      obtain ⟨a, ha, hh⟩ := exists_mem_line t.graded (b := p)
        (n := getSkipHeight (t.nHeight p + 1)) (by omega)
      have hac : a ≠ c := fun he => hb (he ▸ mem_of_mem_line hp ha)
      refine ⟨a, ?_, ?_, ?_⟩
      · rw [line_update t hb hp hpb]
        exact ha
      · rw [Function.update_self]
        exact getAncestor_eq_some.mpr ⟨ha, hh⟩
      · rw [Function.update_of_ne hac, Function.update_self]
        exact hh
    · rw [Function.update_of_ne hcb] at hc
      obtain ⟨a, ha, hs, hh⟩ := t.skip c q hc
      have hq := (t.indexed c q hc).2
      have hqb : q ≠ b := fun he => hb (he ▸ hq)
      have hab : a ≠ b := fun he => hb (he ▸ mem_of_mem_line hq ha)
      refine ⟨a, ?_, ?_, ?_⟩
      · rw [line_update t hb hp hqb]
        exact ha
      · rw [Function.update_of_ne hcb]
        exact hs
      · rw [Function.update_of_ne hab, Function.update_of_ne hcb]
        exact hh

variable {b p}

theorem line_insert_of_ne {proof : ℕ} (hb : b ∉ t.mapBlockIndex) (hp : p ∈ t.mapBlockIndex)
    {c : BlockPtr} (hc : c ≠ b) : (t.insert b p proof hb hp).line c = t.line c :=
  line_update t hb hp hc

theorem line_insert_self {proof : ℕ} (hb : b ∉ t.mapBlockIndex) (hp : p ∈ t.mapBlockIndex) :
    (t.insert b p proof hb hp).line b = b :: t.line p := by
  have hpprev : (t.insert b p proof hb hp).pprev b = some p := by
    show Function.update t.pprev b (some p) b = some p
    rw [Function.update_self]
  have hpb : p ≠ b := fun he => hb (he ▸ hp)
  have hline : (t.insert b p proof hb hp).line b = b :: (t.insert b p proof hb hp).line p :=
    line_child (t.insert b p proof hb hp).graded hpprev
  rw [hline, line_insert_of_ne t hb hp hpb]

end BlockTree

namespace ChainState

/-- `AddToBlockIndex` for a header with a known parent; a known header changes nothing. -/
def addToBlockIndex (s : ChainState) (b p : BlockPtr) (proof : ℕ) : ChainState :=
  if hb : b ∉ s.tree.mapBlockIndex then
    if hp : p ∈ s.tree.mapBlockIndex then
      { s with
        tree := s.tree.insert b p proof hb hp
        node := Function.update s.node b
          { CBlockIndex.null with
            nStatus := CBlockIndex.null.nStatus.raiseValidity BLOCK_VALID_TREE } }
    else s
  else s

/-! ### `ReceivedBlockTransactions` -/

/-- `pprev ? pprev->nChainTx : 0`. -/
def prevChainTx (s : ChainState) (b : BlockPtr) : ℕ :=
  match s.tree.pprev b with
  | none => 0
  | some p => (s.node p).nChainTx

/-- One block of the queue: all its ancestors have transactions. -/
def linkBlock (s : ChainState) (b : BlockPtr) : ChainState :=
  let s := { s.modify b fun e =>
      { e with
        nChainTx := (s.prevChainTx b + e.nTx) % 2 ^ 32
        nSequenceId := s.nBlockSequenceId } with
    nBlockSequenceId := (s.nBlockSequenceId + 1) % 2 ^ 32 }
  match s.tip with
  | none => s.insertCandidate b
  | some t => if !s.less b t then s.insertCandidate b else s

/-- The loop over the queue, with the number of blocks it may still take. -/
def linkLoop : ℕ → List BlockPtr → ChainState → ChainState
  | 0, _, s => s
  | _, [], s => s
  | fuel + 1, b :: queue, s =>
    let s := s.linkBlock b
    -- the blocks that wait for this one move from `mapBlocksUnlinked` to the queue
    let range := s.mapBlocksUnlinked.filter fun r => r.1 = b
    linkLoop fuel (queue ++ range.map Prod.snd)
      { s with mapBlocksUnlinked := s.mapBlocksUnlinked.filter fun r => r.1 ≠ b }

def setReceived (s : ChainState) (b : BlockPtr) (nTx : ℕ) : ChainState :=
  s.modify b fun e =>
    { e with
      nTx := nTx
      nChainTx := 0
      nStatus := ({ e.nStatus with haveData := true }).raiseValidity BLOCK_VALID_TRANSACTIONS }

def receivedBlockTransactions (s : ChainState) (b : BlockPtr) (nTx : ℕ) : ChainState :=
  let s := s.setReceived b nTx
  match s.tree.pprev b with
  | none => linkLoop (s.mapBlocksUnlinked.length + 1) [b] s
  | some p =>
    if (s.node p).nChainTx ≠ 0 then linkLoop (s.mapBlocksUnlinked.length + 1) [b] s
    else if (s.node p).isValid BLOCK_VALID_TREE then s.insertUnlinked b
    else s

/-! ### `InvalidateBlock` -/

/-- The loop that disconnects the active blocks from the tip down to `b`, with the number of
blocks it may still take. -/
def invalidateLoop (b : BlockPtr) : ℕ → ChainState → ChainState
  | 0, s => s
  | fuel + 1, s =>
    if s.contains b then
      match s.tip with
      | none => s
      | some w =>
        invalidateLoop b fuel ((s.modifyStatus w fun st =>
          { st with failedChild := true }).eraseCandidate w).disconnectTip
    else s

/-- One entry of the loop that adds candidates again. -/
def rescanBlock (s : ChainState) (b : BlockPtr) : ChainState :=
  match s.tip with
  | none => s
  | some t =>
    if (s.node b).isValid BLOCK_VALID_TRANSACTIONS ∧ (s.node b).nChainTx ≠ 0 ∧ !s.less b t then
      s.insertCandidate b
    else s

def invalidateBlock (s : ChainState) (b : BlockPtr) : ChainState :=
  let s := (s.modifyStatus b fun st => { st with failedValid := true }).eraseCandidate b
  let s := s.invalidateLoop b s.vChain.length
  s.tree.mapBlockIndex.foldl rescanBlock s

/-! ### `ReconsiderBlock` -/

/-- The failure bits are removed. -/
def clearFailed (s : ChainState) (b : BlockPtr) : ChainState :=
  s.modifyStatus b fun st => { st with failedValid := false, failedChild := false }

/-- One entry of the loop over the index: `p` and its descendants. -/
def reconsiderEntry (p : BlockPtr) (s : ChainState) (b : BlockPtr) : ChainState :=
  if !(s.node b).isValid BLOCK_VALID_TRANSACTIONS ∧
      s.tree.getAncestor b (s.tree.nHeight p) = some p then
    let s := s.clearFailed b
    match s.tip with
    | none => s
    | some t =>
      if (s.node b).isValid BLOCK_VALID_TRANSACTIONS ∧ (s.node b).nChainTx ≠ 0 ∧ s.less t b then
        s.insertCandidate b
      else s
  else s

/-- One ancestor of the loop down to genesis. -/
def reconsiderAncestor (s : ChainState) (b : BlockPtr) : ChainState :=
  if s.failed b then s.clearFailed b else s

def reconsiderBlock (s : ChainState) (p : BlockPtr) : ChainState :=
  (s.line p).foldl reconsiderAncestor (s.tree.mapBlockIndex.foldl (reconsiderEntry p) s)

end ChainState

end Stonecoin
