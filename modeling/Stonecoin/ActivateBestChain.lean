/-
The selection of the best chain in `main.cpp`: `FindMostWorkChain`,
`PruneBlockIndexCandidates`, `ConnectTip`, `ActivateBestChainStep` and
`ActivateBestChain`.

Whether a block connects is asked of an oracle.  Reading blocks, `DisconnectTip` and the
writes to disk succeed, and there is no shutdown.  `pindexBestInvalid`,
`setDirtyBlockIndex` and the notifications are not part of the state: nothing here reads
them.

A loop that follows `pprev` goes through the line of its block.
-/
import Stonecoin.BlockIndex

namespace Stonecoin

open ParentTree

/-- What `ConnectTip` comes to for a block. -/
inductive ConnectVerdict where
  | valid
  /-- The block violates a consensus rule. -/
  | invalid (corruptionPossible : Bool)
  /-- A system error. -/
  | error
deriving DecidableEq, Repr

/-- How a loop of `ActivateBestChainStep` is left: at its end, by `fContinue = false`, or by
returning `false`. -/
inductive StepExit where
  | more
  | stop
  | fail
deriving DecidableEq, Repr

/-- What `ActivateBestChain` does after one pass of its loop. -/
inductive Progress where
  | done
  | again
  | failed
deriving DecidableEq, Repr

namespace ChainState

/-! ### `FindMostWorkChain` -/

/-- The loop from a candidate down to the active chain.  An unusable block is returned with
the blocks that were passed on the way to it. -/
def findUnusable (s : ChainState) :
    List BlockPtr → List BlockPtr → Option (List BlockPtr × BlockPtr)
  | _, [] => none
  | passed, b :: bs =>
    if s.contains b then none
    else if s.failed b || !(s.node b).nStatus.haveData then some (passed, b)
    else findUnusable s (passed ++ [b]) bs

def insertUnlinked (s : ChainState) (b : BlockPtr) : ChainState :=
  match s.tree.pprev b with
  | none => s
  | some p => { s with mapBlocksUnlinked := s.mapBlocksUnlinked ++ [(p, b)] }

def removeFailed (fFailedChain : Bool) (s : ChainState) (b : BlockPtr) : ChainState :=
  (if fFailedChain then s.modifyStatus b fun st => { st with failedChild := true }
    else s.insertUnlinked b).eraseCandidate b

def removeChain (s : ChainState) (passed : List BlockPtr) (b : BlockPtr) : ChainState :=
  (passed.foldl (removeFailed (s.failed b)) s).eraseCandidate b

/-- The loop of `FindMostWorkChain`, with the number of passes it may still take. -/
def findMostWorkChainLoop : ℕ → ChainState → Option BlockPtr × ChainState
  | 0, s => (none, s)
  | fuel + 1, s =>
    match s.bestCandidate with
    | none => (none, s)
    | some pindexNew =>
      match s.findUnusable [] (s.line pindexNew) with
      | none => (some pindexNew, s)
      | some (passed, b) => findMostWorkChainLoop fuel (s.removeChain passed b)

def findMostWorkChain (s : ChainState) : Option BlockPtr × ChainState :=
  findMostWorkChainLoop (s.setBlockIndexCandidates.length + 1) s

/-! ### `ActivateBestChainStep` -/

/-- `PruneBlockIndexCandidates`.  The set is ordered, so the loop removes exactly the
candidates that are worse than the tip. -/
def pruneBlockIndexCandidates (s : ChainState) : ChainState :=
  match s.tip with
  | none => s
  | some t =>
    { s with setBlockIndexCandidates := s.setBlockIndexCandidates.filter fun b => !s.less b t }

def disconnectTip (s : ChainState) : ChainState :=
  match s.tip with
  | none => s
  | some t => s.setTip (s.tree.pprev t)

def disconnectTo (pindexFork : Option BlockPtr) : ℕ → ChainState → ChainState
  | 0, s => s
  | fuel + 1, s =>
    if s.tip.isSome ∧ s.tip ≠ pindexFork then disconnectTo pindexFork fuel s.disconnectTip else s

variable (verdict : BlockPtr → ConnectVerdict)

/-- What `ConnectBlock` sets in `nStatus`; for genesis it returns before that. -/
def connectedStatus (s : ChainState) (b : BlockPtr) (st : BlockStatus) : BlockStatus :=
  if s.tree.pprev b = none then st
  else { st.raiseValidity BLOCK_VALID_SCRIPTS with haveUndo := true }

def connectTip (s : ChainState) (b : BlockPtr) : ChainState :=
  match verdict b with
  | .valid => (s.modifyStatus b (s.connectedStatus b)).setTip (some b)
  | .invalid false =>
    (s.modifyStatus b fun st => { st with failedValid := true }).eraseCandidate b
  | _ => s

/-- `chainActive.Tip()->nChainWork > pindexOldTip->nChainWork`, or there was no tip. -/
def improves (s : ChainState) (pindexOldTip : Option BlockPtr) : Bool :=
  match pindexOldTip, s.tip with
  | some old, some new => s.tree.nChainWork old < s.tree.nChainWork new
  | _, _ => true

/-- The loop over `vpindexToConnect`, from the lowest block. -/
def connectBlocks (pindexOldTip : Option BlockPtr) :
    List BlockPtr → ChainState → StepExit × ChainState
  | [], s => (.more, s)
  | b :: bs, s =>
    match verdict b with
    | .error => (.fail, s.connectTip verdict b)
    | .invalid _ => (.stop, s.connectTip verdict b)
    | .valid =>
      let s := (s.connectTip verdict b).pruneBlockIndexCandidates
      if s.improves pindexOldTip then (.stop, s) else connectBlocks pindexOldTip bs s

/-- The loop over batches of 32 blocks.  `n` is `nHeight + 1`, the number of blocks that
are in place. -/
def connectBatches (pindexOldTip : Option BlockPtr) (pindexMostWork : BlockPtr) :
    ℕ → ℕ → ChainState → StepExit × ChainState
  | 0, _, s => (.more, s)
  | fuel + 1, n, s =>
    if n = s.tree.nHeight pindexMostWork + 1 then (.more, s)
    else
      let nTarget := min (n + 32) (s.tree.nHeight pindexMostWork + 1)
      let vpindexToConnect :=
        match s.tree.getAncestor pindexMostWork (nTarget - 1) with
        | none => []
        | some pindexIter => (s.line pindexIter).takeWhile fun b => s.tree.nHeight b + 1 ≠ n
      match connectBlocks verdict pindexOldTip vpindexToConnect.reverse s with
      | (.more, s) => connectBatches pindexOldTip pindexMostWork fuel nTarget s
      | r => r

def activateBestChainStep (pindexMostWork : BlockPtr) (s : ChainState) : Bool × ChainState :=
  let pindexOldTip := s.tip
  let pindexFork := s.findFork pindexMostWork
  let s := disconnectTo pindexFork s.vChain.length s
  let n :=
    match pindexFork with
    | none => 0
    | some f => s.tree.nHeight f + 1
  match connectBatches verdict pindexOldTip pindexMostWork (s.tree.nHeight pindexMostWork + 1) n s
    with
  | (.fail, s) => (false, s)
  | (_, s) => (true, s)

/-! ### `ActivateBestChain` -/

def activatePass (s : ChainState) : Progress × ChainState :=
  match s.findMostWorkChain with
  | (none, s) => (.done, s)
  | (some pindexMostWork, s) =>
    if s.tip = some pindexMostWork then (.done, s)
    else
      match s.activateBestChainStep verdict pindexMostWork with
      | (false, s) => (.failed, s)
      | (true, s) => if s.tip = some pindexMostWork then (.done, s) else (.again, s)

/-- `ActivateBestChain`, with the number of passes it may still take; `none` if it is still
not done then. -/
def activateBestChain : ℕ → ChainState → Option (Bool × ChainState)
  | 0, _ => none
  | fuel + 1, s =>
    match s.activatePass verdict with
    | (.done, s) => some (true, s)
    | (.failed, s) => some (false, s)
    | (.again, s) => activateBestChain fuel s

end ChainState

end Stonecoin
