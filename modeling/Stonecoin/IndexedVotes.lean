/-
Governance votes and the index of the masternodes that they are stored under.

A node has the list of masternodes with its index (`CMasternodeMan`) and the governance objects
(`CGovernanceManager`), whose vote maps have the numbers of that index as keys.  A rebuild of
the index gives new numbers; the vote maps are given theirs when the next vote is processed.
Until then they are in the numbers of the old index (`VotingNode.generation`).
-/
import Stonecoin.MasternodeUpkeep

namespace Stonecoin

/-- The masternodes and the governance objects of a node. -/
structure VotingNode (H : Type) where
  man : CMasternodeMan
  governance : CGovernanceManager H

namespace CMasternodeMan

variable (man : CMasternodeMan)

def lists (out : COutPoint) : Bool := man.vMasternodes.any fun mn => mn.vin.prevout = out

/-- Some masternodes leave the list; they stay in the index. -/
def remove (gone : COutPoint → Bool) : CMasternodeMan :=
  { man with vMasternodes := man.vMasternodes.filter fun mn => !gone mn.vin.prevout }

/-- `CheckAndRebuildMasternodeIndex` does rebuild the index. -/
def rebuilds (env : ManEnv) : Bool :=
  !decide (env.getTime - man.nLastIndexRebuildTime < MIN_INDEX_REBUILD_TIME) &&
    !decide (man.indexMasternodes.nSize ≤ MAX_EXPECTED_INDEX_SIZE) &&
    !decide (man.indexMasternodes.nSize ≤ man.size)

/-- `GetMasternodeVinForIndexOld` and `GetMasternodeIndex`: the new number of an old one. -/
def renumber (nMasternodeIndex : ℤ) : Option ℤ :=
  (man.indexMasternodesOld.get nMasternodeIndex).map man.indexMasternodes.getMasternodeIndex

def clearOldMasternodeIndex : CMasternodeMan :=
  { man with indexMasternodesOld := .empty, fIndexRebuilt := false }

end CMasternodeMan

variable {H : Type} [DecidableEq H] (hash : CTxIn → UInt256 → ℤ → ℤ → ℤ → H)

/-- `CGovernanceManager::ProcessVote` hands the vote to its object, which asks for the index
of the masternode. -/
def CGovernanceManager.passesOn (m : CGovernanceManager H) (vote : CGovernanceVote) : Bool :=
  !m.mapInvalidVotes.hasKey (vote.getHash hash) &&
    (m.mapObjects.lookup vote.nParentHash).any fun st =>
      !(st.govobj.fCachedDelete || st.govobj.fExpired)

/-- What reaches the node. -/
inductive VotingEvent
  | add (mn : CMasternode)
  | remove (gone : COutPoint → Bool)
  | rebuildIndex (env : ManEnv)
  | addObject (env : ManagerEnv) (nHash : UInt256) (nObjectType nTime : ℤ)
  | vote (env : ManagerEnv) (vote : CGovernanceVote)
  | updateCachesAndClean (env : ManagerEnv)

namespace VotingNode

variable (s : VotingNode H)

/-- `CMasternodeMan()` and `CGovernanceManager()`. -/
def init : VotingNode H := ⟨.init, .init⟩

omit [DecidableEq H] in
/-- What `mnodeman` answers to the governance code. -/
def env (env : ManagerEnv) : ManagerEnv :=
  { env with
    getMasternodeIndex := fun out => s.man.indexMasternodes.getMasternodeIndex ⟨out, [], 0⟩
    getMasternodeVin := s.man.indexMasternodes.get
    getMasternodeInfo := fun out =>
      (s.man.vMasternodes.find? fun mn => mn.vin.prevout = out).map (·.pubKeyMasternode)
    fIndexRebuilt := if s.man.fIndexRebuilt then some s.man.renumber else none }

def processVote (env : ManagerEnv) (vote : CGovernanceVote) : VotingNode H where
  man :=
    if s.man.fIndexRebuilt && s.governance.passesOn hash vote then s.man.clearOldMasternodeIndex
    else s.man
  governance := (s.governance.processVote hash (s.env env) vote).2.1

def step (s : VotingNode H) : VotingEvent → VotingNode H
  | .add mn => { s with man := s.man.add mn }
  | .remove gone => { s with man := s.man.remove gone }
  | .rebuildIndex env => { s with man := s.man.checkAndRebuildMasternodeIndex env }
  | .addObject env nHash nObjectType nTime =>
    { s with
      governance := (s.governance.addGovernanceObject hash (s.env env)
        (.received nHash nObjectType nTime)).2.2 }
  | .vote env vote => s.processVote hash env vote
  | .updateCachesAndClean env =>
    { s with governance := s.governance.updateCachesAndClean hash (s.env env) }

/-! ### What is to hold -/

/-- The index whose numbers the vote maps have. -/
def generation : CMasternodeIndex :=
  if s.man.fIndexRebuilt then s.man.indexMasternodesOld else s.man.indexMasternodes

def HasObject (nHash : UInt256) (o : CGovernanceObject H) : Prop :=
  ∃ st, s.governance.mapObjects.lookup nHash = some st ∧ st.govobj = o

/-- The valid votes among the events, each by the list of masternodes that it meets. -/
def validVotes : VotingNode H → List VotingEvent → List CGovernanceVote
  | _, [] => []
  | s, e :: es =>
    (match e with
      | .vote env vote => if (s.env env).isValid vote then [vote] else []
      | _ => []) ++ validVotes (s.step hash e) es

/-- One of the votes is by the masternode for the object, and has this content. -/
def Cast (votes : List CGovernanceVote) (nHash : UInt256) (out : COutPoint) (eSignal : ℤ)
    (voteInstance : vote_instance_t) : Prop :=
  ∃ vote ∈ votes, vote.nParentHash = nHash ∧ vote.vinMasternode.prevout = out ∧
    vote.getSignal = eSignal ∧ vote.getOutcome = voteInstance.eOutcome ∧
    vote.nTime = voteInstance.nCreationTime

/-- The votes in the vote maps were cast by the masternodes that their numbers stand for;
`vote_instance_t()` is no vote. -/
def Attributed (votes : List CGovernanceVote) : Prop :=
  ∀ nHash o, s.HasObject nHash o → ∀ i eSignal voteInstance,
    o.getInstance i eSignal = some voteInstance → voteInstance ≠ .default →
    ∃ vin, s.generation.get i = some vin ∧ Cast votes nHash vin.prevout eSignal voteInstance

/-- `RebuildVoteMap` keeps the records of the masternodes in the list, and gives none to
another masternode. -/
structure RebuildKeeps (o : CGovernanceObject H) : Prop where
  kept : ∀ i vin, s.generation.get i = some vin → s.man.lists vin.prevout = true →
    (o.rebuildVoteMap s.man.renumber).mapCurrentMNVotes.lookup
      (s.man.indexMasternodes.getMasternodeIndex vin) = o.mapCurrentMNVotes.lookup i
  same : ∀ j recVote,
    (o.rebuildVoteMap s.man.renumber).mapCurrentMNVotes.lookup j = some recVote →
    ∃ i vin vin', s.generation.get i = some vin ∧ s.man.indexMasternodes.get j = some vin' ∧
      vin.prevout = vin'.prevout ∧ o.mapCurrentMNVotes.lookup i = some recVote

def listsNumber (index : CMasternodeIndex) (i : ℤ) : Bool :=
  (index.get i).any fun vin => s.man.lists vin.prevout

/-- `ClearMasternodeVotes` leaves the records of the masternodes in the list. -/
def ClearsUnlisted (env : ManagerEnv) (o : CGovernanceObject H) : Prop :=
  ∀ i, (o.clearMasternodeVotes hash (s.env env).toGovernanceEnv).mapCurrentMNVotes.lookup i =
    if s.listsNumber s.generation i then o.mapCurrentMNVotes.lookup i else none

/-- **The votes survive** in a state. -/
structure VotesSurvive (votes : List CGovernanceVote) : Prop where
  attributed : s.Attributed votes
  rebuilt : s.man.fIndexRebuilt = true → ∀ nHash o, s.HasObject nHash o → s.RebuildKeeps o
  numbers : s.man.indexMasternodes.Numbers ∧ s.man.indexMasternodesOld.Numbers

/-- `UpdateCachesAndClean` clears the dirty objects of nothing but what is gone. -/
def CleansUnlisted (env : ManagerEnv) : Prop :=
  ∀ nHash ∈ env.vecDirtyHashes, ∀ o, s.HasObject nHash o → s.ClearsUnlisted hash env o

/-! ### When an event does no harm -/

/-- For every number that the event looks up, the index that the vote maps are in and the
current one agree: on the outpoint, when the current one takes the place of the other; on the
list, when records are cleared. -/
def Safe (s : VotingNode H) : VotingEvent → Prop
  | .rebuildIndex env => s.man.rebuilds env = true → ∀ nHash o, s.HasObject nHash o →
      ∀ i ∈ o.mapCurrentMNVotes.keys,
        (s.generation.get i).map CTxIn.prevout = (s.man.indexMasternodes.get i).map CTxIn.prevout
  | .updateCachesAndClean env => ∀ nHash ∈ env.vecDirtyHashes, ∀ o, s.HasObject nHash o →
      ∀ i ∈ o.mapCurrentMNVotes.keys,
        s.listsNumber s.generation i = s.listsNumber s.man.indexMasternodes i
  | _ => True

end VotingNode

end Stonecoin
