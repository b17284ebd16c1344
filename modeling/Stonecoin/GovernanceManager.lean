/-
The governance manager (`governance.h`, `governance.cpp`): objects and votes that arrive as
messages, votes that wait for their object, and the upkeep of the caches.

A pointer to an object is the address that the object got when it was stored; no address is
used twice.  Rates, local validity and the triggers belong to the environment.  `std::map`
goes through its keys in order, here in the order of the list; nothing depends on it.
Relaying, requests to peers and watchdog vote times are left out.
-/
import Stonecoin.GovernanceObject

namespace Stonecoin

def MIN_GOVERNANCE_PEER_PROTO_VERSION : ℤ := 70206
def SEEN_OBJECT_IS_VALID : ℤ := 0
def SEEN_OBJECT_ERROR_INVALID : ℤ := 1
def MAX_CACHE_SIZE : ℕ := 1000000

/-- What the rest of the node answers to the manager. -/
structure ManagerEnv extends GovernanceEnv where
  fLiteMode : Bool
  isBlockchainSynced : Bool
  isMasternodeListSynced : Bool
  /-- `pfrom->nVersion`. -/
  nVersion : ℤ
  /-- The new index of an old one, when the masternode index has been rebuilt. -/
  fIndexRebuilt : Option (ℤ → Option ℤ)
  /-- `IsValidLocally`, and whether the masternode is missing. -/
  isValidLocally : UInt256 → Bool × Bool
  /-- `MasternodeRateCheck`, and whether the check was bypassed. -/
  masternodeRateCheck : UInt256 → Bool × Bool
  /-- `MasternodeRateCheck` that may not be bypassed. -/
  masternodeRateCheckForced : UInt256 → Bool
  /-- `mnodeman.GetAndClearDirtyGovernanceObjectHashes`. -/
  vecDirtyHashes : List UInt256
  /-- The objects that `triggerman.CleanAndRemove` lets expire. -/
  cleanAndRemove : UInt256 → Bool

variable {H : Type} [DecidableEq H] (hash : CTxIn → UInt256 → ℤ → ℤ → ℤ → H)

structure StoredObject (H : Type) where
  addr : ℕ
  govobj : CGovernanceObject H

/-- `CGovernanceManager`; of `pCurrentBlockIndex` only whether it is set. -/
structure CGovernanceManager (H : Type) where
  pCurrentBlockIndex : Bool
  mapObjects : AList fun _ : UInt256 => StoredObject H
  mapSeenGovernanceObjects : AList fun _ : UInt256 => ℤ
  mapMasternodeOrphanObjects : AList fun _ : UInt256 => CGovernanceObject H × ℤ
  mapWatchdogObjects : AList fun _ : UInt256 => ℤ
  nHashWatchdogCurrent : UInt256
  nTimeWatchdogCurrent : ℤ
  mapVoteToObject : CacheMap H ℕ
  mapInvalidVotes : CacheMap H CGovernanceVote
  mapOrphanVotes : CacheMultiMap UInt256 (CGovernanceVote × ℤ)
  setRequestedObjects : List UInt256
  setRequestedVotes : List H
  fRateChecksEnabled : Bool
  /-- The address of the next object. -/
  nextAddr : ℕ

/-- `std::map::insert` leaves an entry that is there. -/
def insertNew {K V : Type} [DecidableEq K] (m : AList fun _ : K => V) (key : K) (value : V) :
    AList fun _ : K => V :=
  if (m.lookup key).isSome then m else m.insert key value

namespace CGovernanceManager

def init : CGovernanceManager H where
  pCurrentBlockIndex := false
  mapObjects := ∅
  mapSeenGovernanceObjects := ∅
  mapMasternodeOrphanObjects := ∅
  mapWatchdogObjects := ∅
  nHashWatchdogCurrent := 0
  nTimeWatchdogCurrent := 0
  mapVoteToObject := .of MAX_CACHE_SIZE
  mapInvalidVotes := .of MAX_CACHE_SIZE
  mapOrphanVotes := .of MAX_CACHE_SIZE
  setRequestedObjects := []
  setRequestedVotes := []
  fRateChecksEnabled := true
  nextAddr := 0

/-- A stored object is changed in its place. -/
def modifyObject (m : CGovernanceManager H) (nHash : UInt256)
    (f : CGovernanceObject H → CGovernanceObject H) : CGovernanceManager H :=
  match m.mapObjects.lookup nHash with
  | none => m
  | some st => { m with mapObjects := m.mapObjects.insert nHash { st with govobj := f st.govobj } }

omit [DecidableEq H] in
theorem lookup_modifyObject (m : CGovernanceManager H) (nHash nHash' : UInt256)
    (f : CGovernanceObject H → CGovernanceObject H) :
    (m.modifyObject nHash f).mapObjects.lookup nHash' =
      if nHash' = nHash then
        (m.mapObjects.lookup nHash).map fun st => { st with govobj := f st.govobj }
      else m.mapObjects.lookup nHash' := by
  unfold modifyObject
  cases hl : m.mapObjects.lookup nHash with
  | none =>
    split_ifs with hk
    · rw [hk, hl]; rfl
    · rfl
  | some st =>
    split_ifs with hk
    · rw [hk, AList.lookup_insert]; rfl
    · rw [AList.lookup_insert_ne hk]

omit [DecidableEq H] in
theorem modifyObject_eq (m : CGovernanceManager H) (nHash : UInt256)
    (f : CGovernanceObject H → CGovernanceObject H) :
    m.modifyObject nHash f = { m with mapObjects := (m.modifyObject nHash f).mapObjects } := by
  unfold modifyObject
  cases m.mapObjects.lookup nHash <;> rfl

/-- `RebuildVoteMaps`, if the masternode index has been rebuilt. -/
def rebuildVoteMaps (env : ManagerEnv) (m : CGovernanceManager H) : CGovernanceManager H :=
  match env.fIndexRebuilt with
  | none => m
  | some renumber =>
    m.mapObjects.keys.foldl (fun m nHash => m.modifyObject nHash (·.rebuildVoteMap renumber)) m

omit [DecidableEq H] in
theorem lookup_foldl_modifyObject (f : CGovernanceObject H → CGovernanceObject H) (nHash : UInt256) :
    ∀ (l : List UInt256) (m : CGovernanceManager H), l.Nodup →
      (l.foldl (fun m nHash => m.modifyObject nHash f) m).mapObjects.lookup nHash =
        if nHash ∈ l then
          (m.mapObjects.lookup nHash).map fun st => { st with govobj := f st.govobj }
        else m.mapObjects.lookup nHash
  | [], m, _ => by simp
  | k :: l, m, hnodup => by
    rw [List.nodup_cons] at hnodup
    rw [List.foldl_cons, lookup_foldl_modifyObject f nHash l _ hnodup.2, lookup_modifyObject]
    rcases eq_or_ne nHash k with rfl | hne
    · simp [hnodup.1]
    · simp [hne]

omit [DecidableEq H] in
theorem lookup_rebuildVoteMaps {m : CGovernanceManager H} {env : ManagerEnv}
    {renumber : ℤ → Option ℤ} (hrebuilt : env.fIndexRebuilt = some renumber) (nHash : UInt256) :
    (m.rebuildVoteMaps env).mapObjects.lookup nHash =
      (m.mapObjects.lookup nHash).map fun st =>
        { st with govobj := st.govobj.rebuildVoteMap renumber } := by
  rw [rebuildVoteMaps, hrebuilt]
  dsimp only
  rw [lookup_foldl_modifyObject _ _ _ _ m.mapObjects.keys_nodup]
  split_ifs with hmem
  · rfl
  · have hnone : m.mapObjects.lookup nHash = none :=
      AList.lookup_eq_none.mpr fun h => hmem (AList.mem_keys.mp h)
    rw [hnone]
    rfl

omit [DecidableEq H] in
theorem isSome_lookup_rebuildVoteMaps {m : CGovernanceManager H} {env : ManagerEnv}
    (nHash : UInt256) :
    ((m.rebuildVoteMaps env).mapObjects.lookup nHash).isSome =
      (m.mapObjects.lookup nHash).isSome := by
  cases hrebuilt : env.fIndexRebuilt with
  | none => rw [rebuildVoteMaps, hrebuilt]
  | some renumber => rw [lookup_rebuildVoteMaps hrebuilt, Option.isSome_map]

def addInvalidVote (m : CGovernanceManager H) (vote : CGovernanceVote) : CGovernanceManager H :=
  { m with mapInvalidVotes := m.mapInvalidVotes.insert (vote.getHash hash) vote }

/-- The votes that wait for an object, with one more. -/
def parkVote (env : ManagerEnv) (m : CGovernanceManager H) (vote : CGovernanceVote) :
    CGovernanceManager H :=
  { m with
    mapOrphanVotes := (m.mapOrphanVotes.insert voteTimeLt vote.nParentHash
      (vote, env.getAdjustedTime + GOVERNANCE_ORPHAN_EXPIRATION_TIME)).2 }

def processVote (env : ManagerEnv) (m : CGovernanceManager H) (vote : CGovernanceVote) :
    Bool × CGovernanceManager H × Option CGovernanceException :=
  let nHashVote := vote.getHash hash
  if m.mapInvalidVotes.hasKey nHashVote then (false, m, some ⟨.permanentError, 20⟩)
  else
    match m.mapObjects.lookup vote.nParentHash with
    | none => (false, m.parkVote env vote, some ⟨.warning, 0⟩)
    | some st =>
      if st.govobj.fCachedDelete || st.govobj.fExpired then (false, m, none)
      else
        let m := m.rebuildVoteMaps env
        match m.mapObjects.lookup vote.nParentHash with
        | none => (false, m, none)
        | some st =>
          let r := st.govobj.processVote hash env.toGovernanceEnv m.fRateChecksEnabled vote
          let m := m.modifyObject vote.nParentHash fun _ => r.govobj
          let m := if r.fInvalid then m.addInvalidVote hash vote else m
          if r.fOk then
            (true, { m with mapVoteToObject := m.mapVoteToObject.insert nHashVote st.addr },
              r.exception)
          else (false, m, r.exception)

def updateCurrentWatchdog (env : ManagerEnv) (m : CGovernanceManager H)
    (watchdogNew : CGovernanceObject H) : Bool × CGovernanceManager H :=
  let nExpirationDelay := GOVERNANCE_WATCHDOG_EXPIRATION_TIME / 2
  let nNow := env.getTime
  if m.nHashWatchdogCurrent = 0 ∨
      (nNow - watchdogNew.nTime < nExpirationDelay ∧
        (nExpirationDelay < nNow - m.nTimeWatchdogCurrent ∨
          m.nHashWatchdogCurrent < watchdogNew.nHash)) then
    let m := m.modifyObject m.nHashWatchdogCurrent fun o =>
      { o with
        fExpired := true
        nDeletionTime := if o.nDeletionTime = 0 then nNow else o.nDeletionTime }
    (true, { m with
      nHashWatchdogCurrent := watchdogNew.nHash
      nTimeWatchdogCurrent := watchdogNew.nTime })
  else (false, m)

def storeObject (m : CGovernanceManager H) (govobj : CGovernanceObject H) : CGovernanceManager H :=
  { m with
    mapObjects := m.mapObjects.insert govobj.nHash ⟨m.nextAddr, govobj.copy hash⟩
    nextAddr := m.nextAddr + 1
    mapWatchdogObjects :=
      if govobj.nObjectType = GOVERNANCE_OBJECT_WATCHDOG then
        m.mapWatchdogObjects.insert govobj.nHash
          (govobj.nTime + GOVERNANCE_WATCHDOG_EXPIRATION_TIME)
      else m.mapWatchdogObjects }

def addGovernanceObject (env : ManagerEnv) (m : CGovernanceManager H)
    (govobj : CGovernanceObject H) : Bool × Bool × CGovernanceManager H :=
  if !(env.isValidLocally govobj.nHash).1 then (false, true, m)
  else if (m.mapObjects.lookup govobj.nHash).isSome then (false, true, m)
  else if govobj.nObjectType = GOVERNANCE_OBJECT_WATCHDOG then
    if govobj.nTime < env.getAdjustedTime - GOVERNANCE_WATCHDOG_EXPIRATION_TIME ∨
        env.getAdjustedTime + GOVERNANCE_WATCHDOG_EXPIRATION_TIME < govobj.nTime then
      (false, true, m)
    else
      match m.updateCurrentWatchdog env govobj with
      | (false, m) => (false, false, m)
      | (true, m) => (true, true, m.storeObject hash govobj)
  else (true, true, m.storeObject hash govobj)

/-- One vote in the loop of `CheckOrphanVotes`, which goes to the object that is passed. -/
def checkOrphanVote (env : ManagerEnv) (nHash : UInt256)
    (s : CGovernanceManager H × CGovernanceObject H) (pairVote : CGovernanceVote × ℤ) :
    CGovernanceManager H × CGovernanceObject H :=
  let (m, govobj) := s
  if pairVote.2 < env.getAdjustedTime then
    ({ m with mapOrphanVotes := m.mapOrphanVotes.erase voteTimeLt nHash pairVote }, govobj)
  else
    let r := govobj.processVote hash env.toGovernanceEnv m.fRateChecksEnabled pairVote.1
    let m := if r.fInvalid then m.addInvalidVote hash pairVote.1 else m
    if r.fOk then
      ({ m with mapOrphanVotes := m.mapOrphanVotes.erase voteTimeLt nHash pairVote }, r.govobj)
    else (m, r.govobj)

def checkOrphanVotes (env : ManagerEnv) (m : CGovernanceManager H) (govobj : CGovernanceObject H) :
    CGovernanceManager H × CGovernanceObject H :=
  let vecVotePairs := m.mapOrphanVotes.getAll govobj.nHash
  -- the first vote that is processed has the vote maps rebuilt
  let m :=
    if vecVotePairs.any fun p => env.getAdjustedTime ≤ p.2 then m.rebuildVoteMaps env else m
  let (m, govobj) := vecVotePairs.foldl (checkOrphanVote hash env govobj.nHash)
    ({ m with fRateChecksEnabled := false }, govobj)
  ({ m with fRateChecksEnabled := true }, govobj)

def processObjectMessage (env : ManagerEnv) (m : CGovernanceManager H)
    (govobj : CGovernanceObject H) : CGovernanceManager H :=
  if env.fLiteMode then m
  else if !env.isBlockchainSynced then m
  else if env.nVersion < MIN_GOVERNANCE_PEER_PROTO_VERSION then m
  else if !m.pCurrentBlockIndex then m
  else if !env.isMasternodeListSynced then m
  -- `AcceptObjectMessage`
  else if govobj.nHash ∉ m.setRequestedObjects then m
  else
    let m := { m with setRequestedObjects := m.setRequestedObjects.erase govobj.nHash }
    if (m.mapSeenGovernanceObjects.lookup govobj.nHash).isSome then m
    else if !(env.masternodeRateCheck govobj.nHash).1 then m
    else
      let (fIsValid, fMasternodeMissing) := env.isValidLocally govobj.nHash
      let m :=
        if fMasternodeMissing then
          { m with
            mapMasternodeOrphanObjects := insertNew m.mapMasternodeOrphanObjects govobj.nHash
              (govobj, env.getAdjustedTime + GOVERNANCE_ORPHAN_EXPIRATION_TIME) }
        else m
      if !fIsValid then
        { m with
          mapSeenGovernanceObjects :=
            insertNew m.mapSeenGovernanceObjects govobj.nHash SEEN_OBJECT_ERROR_INVALID }
      else if (env.masternodeRateCheck govobj.nHash).2 &&
          !env.masternodeRateCheckForced govobj.nHash then m
      else
        let govobj := govobj.updateSentinelVariables env.toGovernanceEnv
        let (_, fAddToSeen, m) := m.addGovernanceObject hash env govobj
        let m :=
          if fAddToSeen then
            { m with
              mapSeenGovernanceObjects :=
                insertNew m.mapSeenGovernanceObjects govobj.nHash SEEN_OBJECT_IS_VALID }
          else m
        (m.checkOrphanVotes hash env govobj).1

def processVoteMessage (env : ManagerEnv) (m : CGovernanceManager H) (vote : CGovernanceVote) :
    CGovernanceManager H :=
  if env.fLiteMode then m
  else if !env.isBlockchainSynced then m
  else if env.nVersion < MIN_GOVERNANCE_PEER_PROTO_VERSION then m
  else if !env.isMasternodeListSynced then m
  -- `AcceptVoteMessage`
  else if vote.getHash hash ∉ m.setRequestedVotes then m
  else
    let m := { m with setRequestedVotes := m.setRequestedVotes.erase (vote.getHash hash) }
    (m.processVote hash env vote).2.1

/-! ### Upkeep -/

/-- A watchdog in the first loop of `UpdateCachesAndClean`. -/
def expireWatchdog (env : ManagerEnv) (m : CGovernanceManager H)
    (e : Sigma fun _ : UInt256 => ℤ) : CGovernanceManager H :=
  if e.2 < env.getAdjustedTime then
    let m := m.modifyObject e.1 fun o =>
      { o with
        fExpired := true
        nDeletionTime := if o.nDeletionTime = 0 then env.getAdjustedTime else o.nDeletionTime }
    { m with
      nHashWatchdogCurrent := if e.1 = m.nHashWatchdogCurrent then 0 else m.nHashWatchdogCurrent
      mapWatchdogObjects := m.mapWatchdogObjects.erase e.1 }
  else m

def removeVoteReferences (c : CacheMap H ℕ) (pObj : ℕ) : CacheMap H ℕ :=
  c.listItems.foldl (fun c item => if item.2 = pObj then c.erase item.1 else c) c

def cleanObject (env : ManagerEnv) (m : CGovernanceManager H) (nHash : UInt256) :
    CGovernanceManager H :=
  let m := m.modifyObject nHash fun o =>
    if o.fDirtyCache then o.updateSentinelVariables env.toGovernanceEnv else o
  match m.mapObjects.lookup nHash with
  | none => m
  | some st =>
    let m :=
      if st.govobj.fCachedDelete && nHash = m.nHashWatchdogCurrent then
        { m with nHashWatchdogCurrent := 0 }
      else m
    if (st.govobj.fCachedDelete || st.govobj.fExpired) &&
        GOVERNANCE_DELETION_DELAY ≤ env.getAdjustedTime - st.govobj.nDeletionTime then
      { m with
        mapVoteToObject := removeVoteReferences m.mapVoteToObject st.addr
        mapWatchdogObjects :=
          if st.govobj.nObjectType = GOVERNANCE_OBJECT_WATCHDOG then
            m.mapWatchdogObjects.erase nHash
          else m.mapWatchdogObjects
        mapObjects := m.mapObjects.erase nHash }
    else m

/-- The watchdogs in `UpdateCachesAndClean`, if there are several. -/
def expireWatchdogs (env : ManagerEnv) (m : CGovernanceManager H) : CGovernanceManager H :=
  if 1 < m.mapWatchdogObjects.entries.length then
    m.mapWatchdogObjects.entries.foldl (expireWatchdog env) m
  else m

/-- The dirty objects in `UpdateCachesAndClean`, which lose the votes of missing masternodes. -/
def clearDirtyObjects (env : ManagerEnv) (m : CGovernanceManager H) : CGovernanceManager H :=
  env.vecDirtyHashes.foldl (fun m nHash => m.modifyObject nHash fun o =>
    { o.clearMasternodeVotes hash env.toGovernanceEnv with fDirtyCache := true }) m

def cleanTriggers (env : ManagerEnv) (m : CGovernanceManager H) : CGovernanceManager H :=
  m.mapObjects.keys.foldl (fun m nHash =>
    if env.cleanAndRemove nHash then
      m.modifyObject nHash fun o =>
        { o with fExpired := true, nDeletionTime := env.getAdjustedTime }
    else m) m

def updateCachesAndClean (env : ManagerEnv) (m : CGovernanceManager H) : CGovernanceManager H :=
  let m := (m.expireWatchdogs env).clearDirtyObjects hash env
  if !m.pCurrentBlockIndex then m
  else
    let m := m.cleanTriggers env
    let m := m.mapObjects.keys.foldl (cleanObject env) { m with fRateChecksEnabled := false }
    { m with fRateChecksEnabled := true }

def rebuildIndexes (m : CGovernanceManager H) : CGovernanceManager H :=
  { m with
    mapVoteToObject := m.mapObjects.entries.foldl (fun c e =>
      e.2.govobj.fileVotes.listVotes.foldl (fun c vote =>
        c.insert (vote.getHash hash) e.2.addr) c) m.mapVoteToObject.clear }

end CGovernanceManager

end Stonecoin
