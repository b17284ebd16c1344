/-
How many triggers and watchdogs a masternode may send: `CRateCheckBuffer`,
`MasternodeRateCheck` and its calls in the handler of `MNGOVERNANCEOBJECT`.

The handler calls the check with `UPDATE_FAIL_ONLY` only while it may still refuse an object,
and that case falls through to `default`, which returns true: an object that is too many is
counted, and taken (`masternodeRateCheck_failOnly`).

  * `rateLimited_iff_refused`: runs.
-/
import Mathlib.Data.Rat.Defs
import Mathlib.Algebra.Order.Ring.Rat
import Mathlib.Tactic.NormNum
import Stonecoin.OrphanVotes

namespace Stonecoin

def GOVERNANCE_OBJECT_TRIGGER : ℤ := 2

/-! ### The buffer -/

abbrev RATE_BUFFER_SIZE : ℕ := 5

structure CRateCheckBuffer where
  vecTimestamps : Fin RATE_BUFFER_SIZE → ℤ
  nDataStart : Fin RATE_BUFFER_SIZE
  nDataEnd : Fin RATE_BUFFER_SIZE
  fBufferEmpty : Bool

namespace CRateCheckBuffer

def empty : CRateCheckBuffer := ⟨fun _ => 0, 0, 0, true⟩

variable (b : CRateCheckBuffer)

def addTimestamp (nTimestamp : ℤ) : CRateCheckBuffer where
  vecTimestamps := Function.update b.vecTimestamps b.nDataEnd nTimestamp
  nDataStart := if b.nDataEnd = b.nDataStart ∧ b.fBufferEmpty = false then b.nDataStart + 1
    else b.nDataStart
  nDataEnd := b.nDataEnd + 1
  fBufferEmpty := false

def indexes (nDataEnd : Fin RATE_BUFFER_SIZE) : ℕ → Fin RATE_BUFFER_SIZE → List (Fin RATE_BUFFER_SIZE)
  | 0, _ => []
  | fuel + 1, nIndex =>
    nIndex :: if nIndex + 1 = nDataEnd then [] else indexes nDataEnd fuel (nIndex + 1)

/-- The timestamps in the order of the loops. -/
def data : List ℤ :=
  if b.fBufferEmpty then []
  else (indexes b.nDataEnd RATE_BUFFER_SIZE b.nDataStart).map b.vecTimestamps

def getMinTimestamp : ℤ :=
  b.data.foldl (fun nMin t => if t < nMin then t else nMin) (2 ^ 63 - 1)

def getMaxTimestamp : ℤ := b.data.foldl (fun nMax t => if nMax < t then t else nMax) 0

def getCount : ℕ :=
  if b.fBufferEmpty then 0
  else if b.nDataStart < b.nDataEnd then b.nDataEnd - b.nDataStart
  else RATE_BUFFER_SIZE - b.nDataStart + b.nDataEnd

def getRate : ℚ :=
  if b.getCount < 2 then 0
  -- objects of one time have an infinite rate
  else if b.getMinTimestamp = b.getMaxTimestamp then 10 ^ 10
  else b.getCount / ((b.getMaxTimestamp - b.getMinTimestamp : ℤ) : ℚ)

variable {b}

theorem indexes_fuel (n : ℕ) (nDataEnd nIndex : Fin RATE_BUFFER_SIZE) :
    indexes nDataEnd (n + RATE_BUFFER_SIZE) nIndex = indexes nDataEnd RATE_BUFFER_SIZE nIndex := by
  have hround : ∀ e s : Fin RATE_BUFFER_SIZE, s + 1 = e ∨ s + 1 + 1 = e ∨ s + 1 + 1 + 1 = e ∨
      s + 1 + 1 + 1 + 1 = e ∨ s + 1 + 1 + 1 + 1 + 1 = e := by decide
  rcases hround nDataEnd nIndex with h | h | h | h | h <;> simp [indexes, h]

theorem length_data : b.data.length = b.getCount := by
  have h : ∀ s e : Fin RATE_BUFFER_SIZE, (indexes e RATE_BUFFER_SIZE s).length =
      if s < e then (e - s : ℕ) else RATE_BUFFER_SIZE - s + e := by decide
  unfold data getCount
  split
  · rfl
  · rw [List.length_map, h]

theorem data_addTimestamp (hb : b.fBufferEmpty = true → b.nDataStart = b.nDataEnd)
    (nTimestamp : ℤ) : (b.addTimestamp nTimestamp).data =
      (if b.data.length = RATE_BUFFER_SIZE then b.data.tail else b.data) ++ [nTimestamp] := by
  have hempty : ∀ e : Fin RATE_BUFFER_SIZE, indexes (e + 1) RATE_BUFFER_SIZE e = [e] := by decide
  -- the indexes of the full ring, and of one that is not full
  have hfull : ∀ e : Fin RATE_BUFFER_SIZE, indexes (e + 1) RATE_BUFFER_SIZE (e + 1) =
      (indexes e RATE_BUFFER_SIZE e).tail ++ [e] ∧ e ∉ (indexes e RATE_BUFFER_SIZE e).tail := by
    decide
  have hpart : ∀ s e : Fin RATE_BUFFER_SIZE, s ≠ e →
      (indexes e RATE_BUFFER_SIZE s).length ≠ RATE_BUFFER_SIZE ∧
      indexes (e + 1) RATE_BUFFER_SIZE s = indexes e RATE_BUFFER_SIZE s ++ [e] ∧
        e ∉ indexes e RATE_BUFFER_SIZE s := by decide
  have hmap : ∀ l : List (Fin RATE_BUFFER_SIZE), b.nDataEnd ∉ l →
      l.map (Function.update b.vecTimestamps b.nDataEnd nTimestamp) = l.map b.vecTimestamps :=
    fun l hl => List.map_congr_left fun i hi => Function.update_of_ne (ne_of_mem_of_not_mem hi hl) _ _
  show (indexes (b.nDataEnd + 1) RATE_BUFFER_SIZE _).map _ = _
  unfold data addTimestamp
  cases hfill : b.fBufferEmpty with
  | true =>
    simp [hb hfill, hempty]
  | false =>
    by_cases heq : b.nDataStart = b.nDataEnd
    · obtain ⟨hstep, hnew⟩ := hfull b.nDataEnd
      have hlen : (indexes b.nDataEnd RATE_BUFFER_SIZE b.nDataEnd).length = RATE_BUFFER_SIZE := by
        have h : ∀ e : Fin RATE_BUFFER_SIZE,
          (indexes e RATE_BUFFER_SIZE e).length = RATE_BUFFER_SIZE := by decide
        exact h _
      simp [heq, hstep, hlen, hmap _ hnew]
    · obtain ⟨hlen, hstep, hnew⟩ := hpart _ _ heq
      simp [Ne.symm heq, hstep, hlen, hmap _ hnew]

end CRateCheckBuffer

/-! ### The rate check -/

structure last_object_rec where
  triggerBuffer : CRateCheckBuffer
  watchdogBuffer : CRateCheckBuffer
  fStatusOK : Bool

def last_object_rec.of (fStatusOKIn : Bool) : last_object_rec := ⟨.empty, .empty, fStatusOKIn⟩

def last_object_rec.buffer (it : last_object_rec) (nObjectType : ℤ) : CRateCheckBuffer :=
  if nObjectType = GOVERNANCE_OBJECT_TRIGGER then it.triggerBuffer else it.watchdogBuffer

def last_object_rec.addTimestamp (it : last_object_rec) (nObjectType nTimestamp : ℤ) :
    last_object_rec :=
  if nObjectType = GOVERNANCE_OBJECT_TRIGGER then
    { it with triggerBuffer := it.triggerBuffer.addTimestamp nTimestamp }
  else { it with watchdogBuffer := it.watchdogBuffer.addTimestamp nTimestamp }

inductive update_mode_enum_t
  | UPDATE_FALSE
  | UPDATE_TRUE
  | UPDATE_FAIL_ONLY
deriving DecidableEq

open update_mode_enum_t

/-- What the rest of the node answers, and the parameters of the chain. -/
structure RateEnv extends ManagerEnv where
  isSynced : Bool
  nSuperblockCycle : ℤ
  nPowTargetSpacing : ℤ

def RateEnv.nSuperblockCycleSeconds (env : RateEnv) : ℤ :=
  env.nSuperblockCycle * env.nPowTargetSpacing

def RateEnv.dMaxRate (env : RateEnv) (nObjectType : ℤ) : ℚ :=
  if nObjectType = GOVERNANCE_OBJECT_TRIGGER then 2 * (22 / 10) / env.nSuperblockCycleSeconds
  else 2 * (22 / 10) / 1800

abbrev LastObjects := AList fun _ : COutPoint => last_object_rec

variable {H : Type}

structure SignedObject (H : Type) where
  govobj : CGovernanceObject H
  vinMasternode : COutPoint

def masternodeRateCheck (env : RateEnv) (fRateChecksEnabled : Bool)
    (mapLastMasternodeObject : LastObjects) (msg : SignedObject H)
    (eUpdateLast : update_mode_enum_t) (fForce : Bool) : Bool × Bool × LastObjects :=
  if !env.isSynced then (true, false, mapLastMasternodeObject)
  else if !fRateChecksEnabled then (true, false, mapLastMasternodeObject)
  else
    let nObjectType := msg.govobj.nObjectType
    if nObjectType ≠ GOVERNANCE_OBJECT_TRIGGER ∧ nObjectType ≠ GOVERNANCE_OBJECT_WATCHDOG then
      (true, false, mapLastMasternodeObject)
    else
      let nTimestamp := msg.govobj.nTime
      match mapLastMasternodeObject.lookup msg.vinMasternode with
      | none =>
        if eUpdateLast = UPDATE_TRUE then
          (true, false, mapLastMasternodeObject.insert msg.vinMasternode
            ((last_object_rec.of true).addTimestamp nObjectType nTimestamp))
        else (true, false, mapLastMasternodeObject)
      | some it =>
        if it.fStatusOK && !fForce then (true, true, mapLastMasternodeObject)
        else if nTimestamp < env.getTime - 2 * env.nSuperblockCycleSeconds then
          (false, false, mapLastMasternodeObject)
        else if env.getTime + 60 * 60 < nTimestamp then (false, false, mapLastMasternodeObject)
        else
          let fRateOK : Bool :=
            ((it.buffer nObjectType).addTimestamp nTimestamp).getRate < env.dMaxRate nObjectType
          let added := { it.addTimestamp nObjectType nTimestamp with fStatusOK := fRateOK }
          match eUpdateLast with
          | UPDATE_TRUE =>
            (fRateOK, false, mapLastMasternodeObject.insert msg.vinMasternode added)
          | UPDATE_FAIL_ONLY =>
            -- there is no `break`
            (true, false,
              if fRateOK then mapLastMasternodeObject
              else mapLastMasternodeObject.insert msg.vinMasternode added)
          | UPDATE_FALSE => (true, false, mapLastMasternodeObject)

/-! ### The handler -/

variable [DecidableEq H] (hash : CTxIn → UInt256 → ℤ → ℤ → ℤ → H)

structure RatedManager (H : Type) where
  man : CGovernanceManager H
  mapLastMasternodeObject : LastObjects

namespace RatedManager

def rateCheck (env : RateEnv) (s : RatedManager H) (msg : SignedObject H)
    (eUpdateLast : update_mode_enum_t) (fForce : Bool) : Bool × Bool × LastObjects :=
  masternodeRateCheck env s.man.fRateChecksEnabled s.mapLastMasternodeObject msg eUpdateLast fForce

def processObjectMessage (env : RateEnv) (s : RatedManager H) (msg : SignedObject H) :
    RatedManager H :=
  let govobj := msg.govobj
  if env.fLiteMode then s
  else if !env.isBlockchainSynced then s
  else if env.nVersion < MIN_GOVERNANCE_PEER_PROTO_VERSION then s
  else if !s.man.pCurrentBlockIndex then s
  else if !env.isMasternodeListSynced then s
  -- `AcceptObjectMessage`
  else if govobj.nHash ∉ s.man.setRequestedObjects then s
  else
    let m := { s.man with setRequestedObjects := s.man.setRequestedObjects.erase govobj.nHash }
    if (m.mapSeenGovernanceObjects.lookup govobj.nHash).isSome then ⟨m, s.mapLastMasternodeObject⟩
    else
      let r := s.rateCheck env msg UPDATE_FAIL_ONLY false
      if !r.1 then ⟨m, r.2.2⟩
      else
        let (fIsValid, fMasternodeMissing) := env.isValidLocally govobj.nHash
        let m :=
          if fMasternodeMissing then
            { m with
              mapMasternodeOrphanObjects := insertNew m.mapMasternodeOrphanObjects govobj.nHash
                (govobj, env.getAdjustedTime + GOVERNANCE_ORPHAN_EXPIRATION_TIME) }
          else m
        if !fIsValid then
          ⟨{ m with
            mapSeenGovernanceObjects :=
              insertNew m.mapSeenGovernanceObjects govobj.nHash SEEN_OBJECT_ERROR_INVALID }, r.2.2⟩
        else
          let forced := rateCheck env ⟨s.man, r.2.2⟩ msg UPDATE_FAIL_ONLY true
          if r.2.1 && !forced.1 then ⟨m, forced.2.2⟩
          else
            let rates := if r.2.1 then forced.2.2 else r.2.2
            let govobj := govobj.updateSentinelVariables env.toGovernanceEnv
            let (_, fAddToSeen, m) := m.addGovernanceObject hash env.toManagerEnv govobj
            let rates :=
              if fAddToSeen then (rateCheck env ⟨m, rates⟩ msg UPDATE_TRUE true).2.2 else rates
            let m :=
              if fAddToSeen then
                { m with
                  mapSeenGovernanceObjects :=
                    insertNew m.mapSeenGovernanceObjects govobj.nHash SEEN_OBJECT_IS_VALID }
              else m
            ⟨(m.checkOrphanVotes hash env.toManagerEnv govobj).1, rates⟩

/-- The environment with the answers that the two checks give. -/
def managerEnv (env : RateEnv) (s : RatedManager H) (msg : SignedObject H) : ManagerEnv :=
  let r := s.rateCheck env msg UPDATE_FAIL_ONLY false
  { env.toManagerEnv with
    masternodeRateCheck := fun _ => (r.1, r.2.1)
    masternodeRateCheckForced := fun _ =>
      (rateCheck env ⟨s.man, r.2.2⟩ msg UPDATE_FAIL_ONLY true).1 }

theorem man_processObjectMessage (env : RateEnv) (s : RatedManager H) (msg : SignedObject H) :
    (s.processObjectMessage hash env msg).man =
      s.man.processObjectMessage hash (s.managerEnv env msg) msg.govobj := by
  unfold processObjectMessage CGovernanceManager.processObjectMessage managerEnv
  dsimp only
  rcases env.isValidLocally msg.govobj.nHash with ⟨fIsValid, fMasternodeMissing⟩
  simp only [apply_ite RatedManager.man]
  rfl

/-! ### What is added -/

/-- A valid trigger or watchdog, that comes to a synced node. -/
structure Proper (env : RateEnv) (msg : SignedObject H) : Prop where
  isSynced : env.isSynced = true
  isValidLocally : env.isValidLocally msg.govobj.nHash = (true, false)
  nObjectType : msg.govobj.nObjectType = GOVERNANCE_OBJECT_TRIGGER ∨
    msg.govobj.nObjectType = GOVERNANCE_OBJECT_WATCHDOG

/-- The rate that the object would bring its masternode to is too high. -/
def OverRate (env : RateEnv) (s : RatedManager H) (msg : SignedObject H) : Prop :=
  env.dMaxRate msg.govobj.nObjectType ≤
    ((((s.mapLastMasternodeObject.lookup msg.vinMasternode).getD (.of true)).buffer
      msg.govobj.nObjectType).addTimestamp msg.govobj.nTime).getRate

instance (env : RateEnv) (s : RatedManager H) (msg : SignedObject H) :
    Decidable (OverRate env s msg) := inferInstanceAs (Decidable (_ ≤ _))

/-- The object of a known sender is neither too old nor too new. -/
def Timely (env : RateEnv) (s : RatedManager H) (msg : SignedObject H) : Prop :=
  (s.mapLastMasternodeObject.lookup msg.vinMasternode).isSome = true →
    env.getTime - 2 * env.nSuperblockCycleSeconds ≤ msg.govobj.nTime ∧
      msg.govobj.nTime ≤ env.getTime + 60 * 60

/-- The conditions on a watchdog: its time, and that it becomes the current one. -/
def WatchdogOk (env : ManagerEnv) (m : CGovernanceManager H) (govobj : CGovernanceObject H) : Prop :=
  govobj.nObjectType = GOVERNANCE_OBJECT_WATCHDOG →
    (env.getAdjustedTime - GOVERNANCE_WATCHDOG_EXPIRATION_TIME ≤ govobj.nTime ∧
      govobj.nTime ≤ env.getAdjustedTime + GOVERNANCE_WATCHDOG_EXPIRATION_TIME) ∧
    (m.nHashWatchdogCurrent = 0 ∨
      (env.getTime - govobj.nTime < GOVERNANCE_WATCHDOG_EXPIRATION_TIME / 2 ∧
        (GOVERNANCE_WATCHDOG_EXPIRATION_TIME / 2 < env.getTime - m.nTimeWatchdogCurrent ∨
          m.nHashWatchdogCurrent < govobj.nHash)))

/-- All other checks of the handler let the object through. -/
structure PassesOthers (env : RateEnv) (s : RatedManager H) (msg : SignedObject H) : Prop where
  fLiteMode : env.fLiteMode = false
  isBlockchainSynced : env.isBlockchainSynced = true
  nVersion : MIN_GOVERNANCE_PEER_PROTO_VERSION ≤ env.nVersion
  pCurrentBlockIndex : s.man.pCurrentBlockIndex = true
  isMasternodeListSynced : env.isMasternodeListSynced = true
  requested : msg.govobj.nHash ∈ s.man.setRequestedObjects
  unseen : s.man.mapSeenGovernanceObjects.lookup msg.govobj.nHash = none
  timely : Timely env s msg
  new : s.man.mapObjects.lookup msg.govobj.nHash = none
  watchdog : WatchdogOk env.toManagerEnv s.man msg.govobj

variable {hash} {env : RateEnv} {s : RatedManager H} {msg : SignedObject H}

omit [DecidableEq H] in
theorem Proper.type_ne (hp : Proper env msg) :
    ¬ (msg.govobj.nObjectType ≠ GOVERNANCE_OBJECT_TRIGGER ∧
      msg.govobj.nObjectType ≠ GOVERNANCE_OBJECT_WATCHDOG) :=
  fun h => hp.nObjectType.elim h.1 h.2

omit [DecidableEq H] in
theorem failOnly_checked (hp : Proper env msg) (henabled : s.man.fRateChecksEnabled = true)
    {it : last_object_rec} (hit : s.mapLastMasternodeObject.lookup msg.vinMasternode = some it)
    {fForce : Bool} (h : (it.fStatusOK && !fForce) = false) :
    (s.rateCheck env msg UPDATE_FAIL_ONLY fForce).2.1 = false ∧
      ((s.rateCheck env msg UPDATE_FAIL_ONLY fForce).1 = true ↔ Timely env s msg) := by
  unfold Timely rateCheck masternodeRateCheck
  simp only [hp.isSynced, henabled, Bool.not_true, Bool.false_eq_true, if_false, if_neg hp.type_ne,
    hit, h, Option.isSome_some, forall_const]
  split
  next hold => exact ⟨rfl, by simp, fun h => absurd h.1 (Int.not_le.mpr hold)⟩
  next hold =>
    split
    next hnew => exact ⟨rfl, by simp, fun h => absurd h.2 (Int.not_le.mpr hnew)⟩
    next hnew =>
      -- whatever the rate is
      exact ⟨rfl, fun _ => ⟨Int.not_lt.mp hold, Int.not_lt.mp hnew⟩, fun _ => rfl⟩

omit [DecidableEq H] in
theorem masternodeRateCheck_failOnly (hp : Proper env msg)
    (henabled : s.man.fRateChecksEnabled = true) :
    ((s.rateCheck env msg UPDATE_FAIL_ONLY false).1 = true ∧
      ((s.rateCheck env msg UPDATE_FAIL_ONLY false).2.1 = true →
        (rateCheck env ⟨s.man, (s.rateCheck env msg UPDATE_FAIL_ONLY false).2.2⟩ msg
          UPDATE_FAIL_ONLY true).1 = true)) ↔ Timely env s msg := by
  rcases hit : s.mapLastMasternodeObject.lookup msg.vinMasternode with - | it
  · have hfirst : s.rateCheck env msg UPDATE_FAIL_ONLY false =
        (true, false, s.mapLastMasternodeObject) := by
      unfold rateCheck masternodeRateCheck
      simp [hp.isSynced, henabled, hp.type_ne, hit]
    rw [hfirst, Timely, hit]
    simp
  · cases hok : it.fStatusOK with
    | true =>
      have hfirst : s.rateCheck env msg UPDATE_FAIL_ONLY false =
          (true, true, s.mapLastMasternodeObject) := by
        unfold rateCheck masternodeRateCheck
        simp [hp.isSynced, henabled, hp.type_ne, hit, hok]
      have hstatus : (it.fStatusOK && !true) = false := Bool.and_false _
      have hforced := (failOnly_checked hp henabled hit hstatus).2
      rw [hfirst]
      simpa using hforced
    | false =>
      have hstatus : (it.fStatusOK && !false) = false := by rw [hok]; rfl
      have hchecked := failOnly_checked hp henabled hit hstatus
      rw [hchecked.1]
      simpa using hchecked.2

end RatedManager

namespace CGovernanceManager

variable {hash} {env : ManagerEnv} {m : CGovernanceManager H} {govobj : CGovernanceObject H}

def Stores (m : CGovernanceManager H) (nHash : UInt256) : Prop :=
  (m.mapObjects.lookup nHash).isSome = true

instance (m : CGovernanceManager H) (nHash : UInt256) : Decidable (m.Stores nHash) :=
  inferInstanceAs (Decidable (_ = true))

omit [DecidableEq H] in
theorem stores_ite {c : Prop} [Decidable c] {m m' : CGovernanceManager H} {nHash : UInt256}
    (h : ¬ m.Stores nHash) : (if c then m else m').Stores nHash ↔ ¬ c ∧ m'.Stores nHash := by
  split
  next hc => exact iff_of_false h fun h' => h'.1 hc
  next hc => exact (and_iff_right hc).symm

variable (hash) in
theorem stores_addGovernanceObject (hvalid : (env.isValidLocally govobj.nHash).1 = true)
    (hnew : ¬ m.Stores govobj.nHash) :
    (m.addGovernanceObject hash env govobj).2.2.Stores govobj.nHash ↔
      RatedManager.WatchdogOk env m govobj := by
  have hstored : ∀ m' : CGovernanceManager H, (m'.storeObject hash govobj).Stores govobj.nHash := by
    intro m'
    show ((m'.mapObjects.insert govobj.nHash _).lookup govobj.nHash).isSome = true
    rw [AList.lookup_insert]
    rfl
  unfold addGovernanceObject RatedManager.WatchdogOk
  have hnone : ¬ (m.mapObjects.lookup govobj.nHash).isSome = true := hnew
  rw [if_neg (by rw [hvalid]; decide), if_neg hnone]
  split
  next htype =>
    simp only [htype, forall_const]
    split
    next htime =>
      refine iff_of_false hnew ?_
      rintro ⟨hbounds, -⟩
      omega
    next htime =>
      -- the watchdog becomes the current one, or it is dropped
      unfold updateCurrentWatchdog
      dsimp only
      split_ifs with hcurrent
      · exact iff_of_true (hstored _) ⟨by omega, hcurrent⟩
      · refine iff_of_false hnew ?_
        rintro ⟨-, h⟩
        exact hcurrent h
  next htype => exact iff_of_true (hstored _) fun h => absurd h htype

theorem mapObjects_foldl_checkOrphanVote (nHash : UInt256) :
    ∀ (vecVotePairs : List (CGovernanceVote × ℤ)) (s : CGovernanceManager H × CGovernanceObject H),
      (vecVotePairs.foldl (checkOrphanVote hash env nHash) s).1.mapObjects = s.1.mapObjects
  | [], _ => rfl
  | pairVote :: vecVotePairs, s => by
    rw [List.foldl_cons, mapObjects_foldl_checkOrphanVote nHash vecVotePairs]
    unfold checkOrphanVote
    dsimp only
    split_ifs <;> rfl

theorem stores_checkOrphanVotes {nHash : UInt256} :
    (m.checkOrphanVotes hash env govobj).1.Stores nHash ↔ m.Stores nHash := by
  unfold checkOrphanVotes Stores
  dsimp only
  rw [mapObjects_foldl_checkOrphanVote]
  split
  · rw [isSome_lookup_rebuildVoteMaps]
  · rfl

/-- What the handler does with an object that has passed the checks. -/
def takeObject (hash : CTxIn → UInt256 → ℤ → ℤ → ℤ → H) (env : ManagerEnv)
    (m : CGovernanceManager H) (govobj : CGovernanceObject H) : CGovernanceManager H :=
  let govobj := govobj.updateSentinelVariables env.toGovernanceEnv
  let r := m.addGovernanceObject hash env govobj
  let m :=
    if r.2.1 then
      { r.2.2 with
        mapSeenGovernanceObjects :=
          insertNew r.2.2.mapSeenGovernanceObjects govobj.nHash SEEN_OBJECT_IS_VALID }
    else r.2.2
  (m.checkOrphanVotes hash env govobj).1

def acceptObjectMessage (m : CGovernanceManager H) (nHash : UInt256) : CGovernanceManager H :=
  { m with setRequestedObjects := m.setRequestedObjects.erase nHash }

theorem processObjectMessage_of_valid
    (h : env.isValidLocally govobj.nHash = (true, false)) :
    m.processObjectMessage hash env govobj =
      if env.fLiteMode then m
      else if !env.isBlockchainSynced then m
      else if env.nVersion < MIN_GOVERNANCE_PEER_PROTO_VERSION then m
      else if !m.pCurrentBlockIndex then m
      else if !env.isMasternodeListSynced then m
      else if govobj.nHash ∉ m.setRequestedObjects then m
      else if (m.mapSeenGovernanceObjects.lookup govobj.nHash).isSome then
        m.acceptObjectMessage govobj.nHash
      else if !(env.masternodeRateCheck govobj.nHash).1 then m.acceptObjectMessage govobj.nHash
      else if (env.masternodeRateCheck govobj.nHash).2 &&
          !env.masternodeRateCheckForced govobj.nHash then
        m.acceptObjectMessage govobj.nHash
      else (m.acceptObjectMessage govobj.nHash).takeObject hash env govobj := by
  unfold processObjectMessage
  rw [h]
  rfl

theorem stores_takeObject (h : env.isValidLocally govobj.nHash = (true, false))
    (hnew : ¬ m.Stores govobj.nHash) :
    (m.takeObject hash env govobj).Stores govobj.nHash ↔ RatedManager.WatchdogOk env m govobj := by
  obtain ⟨hhash, htype, htime⟩ : (govobj.updateSentinelVariables env.toGovernanceEnv).nHash =
      govobj.nHash ∧ (govobj.updateSentinelVariables env.toGovernanceEnv).nObjectType =
      govobj.nObjectType ∧ (govobj.updateSentinelVariables env.toGovernanceEnv).nTime =
      govobj.nTime := by
    unfold CGovernanceObject.updateSentinelVariables
    split <;> exact ⟨rfl, rfl, rfl⟩
  have hadd : (m.addGovernanceObject hash env (govobj.updateSentinelVariables
      env.toGovernanceEnv)).2.2.Stores govobj.nHash ↔ RatedManager.WatchdogOk env m govobj := by
    have hvalid : (env.isValidLocally (govobj.updateSentinelVariables
        env.toGovernanceEnv).nHash).1 = true := by rw [hhash, h]
    have hstores := stores_addGovernanceObject hash hvalid (by rwa [hhash])
    unfold RatedManager.WatchdogOk at hstores ⊢
    rwa [hhash, htype, htime] at hstores
  unfold takeObject
  dsimp only
  rw [stores_checkOrphanVotes]
  split
  · exact hadd
  · exact hadd

end CGovernanceManager

namespace RatedManager

open CGovernanceManager CGovernanceObject

variable {hash} {env : RateEnv} {s : RatedManager H} {msg : SignedObject H}

theorem stores_processObjectMessage (hp : Proper env msg)
    (henabled : s.man.fRateChecksEnabled = true) (hnew : ¬ s.man.Stores msg.govobj.nHash) :
    (s.processObjectMessage hash env msg).man.Stores msg.govobj.nHash ↔
      PassesOthers env s msg := by
  have hrates := masternodeRateCheck_failOnly hp henabled
  have hlocal : (s.managerEnv env msg).isValidLocally msg.govobj.nHash = (true, false) :=
    hp.isValidLocally
  have haccept : ¬ (s.man.acceptObjectMessage msg.govobj.nHash).Stores msg.govobj.nHash := hnew
  rw [man_processObjectMessage, processObjectMessage_of_valid hlocal, stores_ite hnew,
    stores_ite hnew, stores_ite hnew, stores_ite hnew, stores_ite hnew, stores_ite hnew,
    stores_ite haccept, stores_ite haccept, stores_ite haccept, stores_takeObject hlocal haccept]
  simp only [Bool.not_eq_true, Bool.not_eq_false, Bool.not_eq_true', Bool.not_eq_false',
    Bool.and_eq_false_iff, Int.not_lt, not_not]
  constructor
  · rintro ⟨hlite, hsynced, hversion, hcurrent, hlist, hrequested, hseen, hfirst, hforced, hwatch⟩
    have htimely : Timely env s msg := by
      refine hrates.mp ⟨hfirst, fun hbypassed => ?_⟩
      rcases hforced with h | h
      · exact absurd (hbypassed.symm.trans h) (by decide)
      · exact h
    exact ⟨hlite, hsynced, hversion, hcurrent, hlist, hrequested, by simpa using hseen, htimely,
      by simpa [Stores] using hnew, hwatch⟩
  · intro h
    obtain ⟨hfirst, hforced⟩ := hrates.mpr h.timely
    refine ⟨h.fLiteMode, h.isBlockchainSynced, h.nVersion, h.pCurrentBlockIndex,
      h.isMasternodeListSynced, h.requested, by simp [h.unseen], hfirst, ?_, h.watchdog⟩
    rcases hb : (s.rateCheck env msg UPDATE_FAIL_ONLY false).2.1 with - | -
    · exact Or.inl hb
    · exact Or.inr (hforced hb)

theorem fRateChecksEnabled_processObjectMessage (hp : Proper env msg)
    (henabled : s.man.fRateChecksEnabled = true) :
    (s.processObjectMessage hash env msg).man.fRateChecksEnabled = true := by
  have hlocal : (s.managerEnv env msg).isValidLocally msg.govobj.nHash = (true, false) :=
    hp.isValidLocally
  rw [man_processObjectMessage, processObjectMessage_of_valid hlocal]
  split_ifs <;> first | exact henabled | rfl

/-! ### Runs -/

/-- A property of every message of a run, in the state that it meets. -/
def Each (hash : CTxIn → UInt256 → ℤ → ℤ → ℤ → H)
    (P : RateEnv → RatedManager H → SignedObject H → Prop) :
    RatedManager H → List (RateEnv × SignedObject H) → Prop
  | _, [] => True
  | s, (env, msg) :: calls => P env s msg ∧ Each hash P (s.processObjectMessage hash env msg) calls

/-- **The rate limit**: an object that would bring the rate to the maximum is not added. -/
def RateLimited (hash : CTxIn → UInt256 → ℤ → ℤ → ℤ → H) : RatedManager H →
    List (RateEnv × SignedObject H) → Prop :=
  Each hash fun env s msg => OverRate env s msg → ¬ s.man.Stores msg.govobj.nHash →
    ¬ (s.processObjectMessage hash env msg).man.Stores msg.govobj.nHash

/-- **When the rate limit holds**: the other checks refuse every object that is too many. -/
theorem rateLimited_iff_refused : ∀ {calls : List (RateEnv × SignedObject H)} {s : RatedManager H},
    (∀ call ∈ calls, Proper call.1 call.2) → s.man.fRateChecksEnabled = true →
    (RateLimited hash s calls ↔
      Each hash (fun env s msg => OverRate env s msg → ¬ PassesOthers env s msg) s calls) := by
  intro calls
  induction calls with
  | nil => exact fun _ _ => Iff.rfl
  | cons call calls ih =>
    obtain ⟨env, msg⟩ := call
    intro s hp henabled
    have hmsg := hp _ List.mem_cons_self
    have hrest := ih (s := s.processObjectMessage hash env msg)
      (fun call hcall => hp call (List.mem_cons_of_mem _ hcall))
      (fRateChecksEnabled_processObjectMessage hmsg henabled)
    apply and_congr _ hrest
    apply imp_congr_right
    intro _
    constructor
    · intro h hpass
      have hnew : ¬ s.man.Stores msg.govobj.nHash := by
        rw [Stores, hpass.new]
        exact Bool.false_ne_true
      exact h hnew ((stores_processObjectMessage hmsg henabled hnew).mpr hpass)
    · intro h hnew hstores
      exact h ((stores_processObjectMessage hmsg henabled hnew).mp hstores)

def mainRateEnv : RateEnv where
  toManagerEnv := openManagerEnv
  isSynced := true
  nSuperblockCycle := 16616
  nPowTargetSpacing := 120

def twoRequests : RatedManager (CTxIn × UInt256 × ℤ × ℤ × ℤ) where
  man := { CGovernanceManager.init with
    pCurrentBlockIndex := true
    setRequestedObjects := [1, 2] }
  mapLastMasternodeObject := ∅

def triggerAt (nHash : UInt256) (nTime : ℤ) :
    RateEnv × SignedObject (CTxIn × UInt256 × ℤ × ℤ × ℤ) :=
  (mainRateEnv, ⟨.received nHash GOVERNANCE_OBJECT_TRIGGER nTime, ⟨7, 0⟩⟩)

theorem rateLimited_iff_refused_cycle :
    RateLimited voteTuple twoRequests [triggerAt 1 1498006080, triggerAt 2 1500000000] := by
  apply (rateLimited_iff_refused _ rfl).mpr
  · refine ⟨fun h => ?_, fun h => ?_, trivial⟩
    · exact absurd h (by decide +kernel)
    · exact absurd h (by decide +kernel)
  · intro call hcall
    obtain rfl | rfl : call = _ ∨ call = _ := by simpa using hcall
    · exact ⟨rfl, rfl, Or.inl rfl⟩
    · exact ⟨rfl, rfl, Or.inl rfl⟩

/-- **Two triggers of one second** are both added. -/
theorem not_rateLimited_second :
    ¬ RateLimited voteTuple twoRequests [triggerAt 1 1500000000, triggerAt 2 1500000000] := by
  rintro ⟨-, h, -⟩
  exact h (by decide +kernel) (by decide +kernel) (by decide +kernel)

end RatedManager

end Stonecoin
