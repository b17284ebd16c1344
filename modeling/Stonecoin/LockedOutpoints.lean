/-
Which outpoints are locked, and by whom.

A lock is entered for all inputs of a candidate at once, and only if none of them is locked by
another transaction, so the entries of a candidate stand or fall together.  The expiry of a
candidate, though, erases the entries of its inputs whoever has locked them.

  * `locked_quorum_iff`: locked outpoints have a quorum, all or none of a candidate's outpoints
                          are locked and only an expiry of the candidate unlocks them, exactly
                          if no expiry meets an outpoint that a candidate which stays has locked.
-/
import Stonecoin.InstantSendSteps
import Stonecoin.Runs

namespace Stonecoin

namespace CInstantSend

variable {hash : UInt256 → COutPoint → COutPoint → UInt256} {env : InstantEnv}
  {m m' : CInstantSend}

/-! ### Statement -/

/-- Each lock of the candidate has votes of enough masternodes, all of them for this transaction
and for the outpoint of the lock. -/
def Quorum (txHash : UInt256) (c : CTxLockCandidate) : Prop :=
  ∀ o lock, c.mapOutPointLocks.lookup o = some lock →
    COutPointLock.SIGNATURES_REQUIRED ≤ lock.voters.card ∧
      ∀ mn ∈ lock.voters, ∃ vote, lock.mapMasternodeVotes.lookup mn = some vote ∧
        vote.txHash = txHash ∧ vote.outpoint = o ∧ vote.outpointMasternode = mn

/-- A locked outpoint is one of a candidate with a quorum whose outpoints are all locked. -/
def LockedQuorum (m : CInstantSend) : Prop :=
  ∀ o txHash, m.mapLockedOutpoints.lookup o = some txHash →
    ∃ c, m.mapTxLockCandidates.lookup txHash = some c ∧ c.Owns o ∧ Quorum txHash c ∧
      ∀ o', c.Owns o' → m.mapLockedOutpoints.lookup o' = some txHash

/-- Nothing but the expiry of the candidate takes away its locked outpoints. -/
def KeepsLocked (hash : UInt256 → COutPoint → COutPoint → UInt256) (m : CInstantSend)
    (e : InstantEnv × InstantEvent) : Prop :=
  ∀ o txHash, m.mapLockedOutpoints.lookup o = some txHash →
    (m.step hash e).mapLockedOutpoints.lookup o = some txHash ∨
      e.2 = .checkAndRemove ∧ ∃ c, Expires e.1 m txHash c

/-- No expiry frees an outpoint that a candidate which stays has locked. -/
def ExpirySparesLocks (env : InstantEnv) (m : CInstantSend) : Prop :=
  ∀ o txHash, Frees env m o → m.mapLockedOutpoints.lookup o = some txHash →
    ∃ c, Expires env m txHash c

/-! ### One change -/

theorem quorum_of {txHash : UInt256} {c : CTxLockCandidate} (hok : c.Ok txHash)
    (hready : c.AllReady) : Quorum txHash c := by
  intro o lock hl
  refine ⟨?_, fun mn hmn => ?_⟩
  · rw [COutPointLock.card_voters]
    exact hready o lock hl
  · obtain ⟨vote, hvote⟩ := Option.isSome_iff_exists.mp (COutPointLock.mem_voters.mp hmn)
    exact ⟨vote, hvote, hok.votes o lock mn vote hl hvote⟩

theorem Quorum.allReady {txHash : UInt256} {c : CTxLockCandidate} (h : Quorum txHash c) :
    c.AllReady := by
  intro o lock hl
  rw [← COutPointLock.card_voters]
  exact (h o lock hl).1

theorem eachCandidate_ok_effect (he : Effect env m m') (h : EachCandidate CTxLockCandidate.Ok m) :
    EachCandidate CTxLockCandidate.Ok m' :=
  EachCandidate.effect (fun _ _ _ hc => ⟨hc.hash, hc.owns, hc.votes⟩)
    (fun txLockRequest _ _ => CTxLockCandidate.ok_of txLockRequest)
    (fun _ _ _ hc hadd => hc.addVote hadd) he h

theorem lookup_foldl_insertNew {K V : Type} [DecidableEq K] (v : V) :
    ∀ (ks : List K) (l : AList fun _ : K => V) (t : K),
      (ks.foldl (fun l k => insertNew l k v) l).lookup t =
        if (l.lookup t).isSome then l.lookup t else if t ∈ ks then some v else none
  | [], l, t => by
    cases h : l.lookup t <;> simp [h]
  | k :: ks, l, t => by
    have hnew : (insertNew l k v).lookup t =
        if (l.lookup t).isSome then l.lookup t else if t = k then some v else none := by
      unfold insertNew
      rcases hk : l.lookup k with - | u
      · show (l.insert k v).lookup t = _
        rcases eq_or_ne t k with rfl | hne
        · simp [hk]
        · rw [AList.lookup_insert_ne hne]
          cases h : l.lookup t <;> simp [hne]
      · show l.lookup t = _
        rcases eq_or_ne t k with rfl | hne
        · simp [hk]
        · cases h : l.lookup t <;> simp [hne]
    rw [List.foldl_cons, lookup_foldl_insertNew v ks, hnew]
    cases h : l.lookup t with
    | some u => simp
    | none =>
      rcases eq_or_ne t k with rfl | hne
      · simp
      · simp [hne]

theorem lookup_lockTransactionInputs {c : CTxLockCandidate} (hready : c.isAllOutPointsReady = true)
    (o : COutPoint) : (m.lockTransactionInputs c).mapLockedOutpoints.lookup o =
      if (m.mapLockedOutpoints.lookup o).isSome then m.mapLockedOutpoints.lookup o
      else if c.Owns o then some c.txLockRequest.hash else none := by
  unfold lockTransactionInputs
  rw [hready]
  refine (lookup_foldl_insertNew c.txLockRequest.hash c.mapOutPointLocks.keys
    m.mapLockedOutpoints o).trans ?_
  simp only [CTxLockCandidate.Owns, AList.mem_keys]

theorem Effect.locked_mono (he : Effect env m m') {o : COutPoint} {txHash : UInt256}
    (hl : m.mapLockedOutpoints.lookup o = some txHash) :
    m'.mapLockedOutpoints.lookup o = some txHash := by
  cases he with
  | other hsame => rw [hsame.locked, hl]
  | confirm nHeightNew hc => exact hl
  | create hvalid hc => exact hl
  | counted hvalid hc hadd hconflict => exact hl
  | refused hvalid hc hadd => exact hl
  | locked hc hready hconflict =>
    rw [lookup_lockTransactionInputs hready, hl]
    rfl

theorem Effect.locked_new (hok : EachCandidate CTxLockCandidate.Ok m) (he : Effect env m m')
    {o : COutPoint} {txHash : UInt256} (hl : m'.mapLockedOutpoints.lookup o = some txHash) :
    m.mapLockedOutpoints.lookup o = some txHash ∨
      ∃ c, m'.mapTxLockCandidates.lookup txHash = some c ∧ c.Owns o ∧ c.AllReady ∧
        ∀ o', c.Owns o' → m'.mapLockedOutpoints.lookup o' = some txHash := by
  cases he with
  | other hsame => exact .inl (hsame.locked ▸ hl)
  | confirm nHeightNew hc => exact .inl hl
  | create hvalid hc => exact .inl hl
  | counted hvalid hc hadd hconflict => exact .inl hl
  | refused hvalid hc hadd => exact .inl hl
  | @locked txHash' c hc hready hconflict =>
    obtain ⟨hhash, howns, -⟩ := hok txHash' c hc
    -- what is locked already is locked by the same transaction
    have hall : ∀ o', c.Owns o' →
        (m.lockTransactionInputs c).mapLockedOutpoints.lookup o' = some c.txLockRequest.hash := by
      intro o' ho'
      rw [lookup_lockTransactionInputs hready]
      rcases hl' : m.mapLockedOutpoints.lookup o' with - | txHash''
      · simp [ho']
      · obtain ⟨txin, htxin, rfl⟩ := (howns o').mp ho'
        rw [hconflict txin htxin txHash'' hl']
        rfl
    rw [lookup_lockTransactionInputs hready] at hl
    split_ifs at hl with hsome ho
    · exact .inl hl
    · rw [Option.some.injEq] at hl
      subst hl
      refine .inr ⟨c, ?_, ho, CTxLockCandidate.allReady_of_isAllOutPointsReady hready, hall⟩
      rw [lockTransactionInputs_candidates, hhash, hc]

theorem LockedQuorum.effect (hok : EachCandidate CTxLockCandidate.Ok m) (he : Effect env m m')
    (h : LockedQuorum m) : LockedQuorum m' := by
  intro o txHash hl
  rcases he.locked_new hok hl with hl | ⟨c, hc, ho, hready, hall⟩
  · obtain ⟨c, hc, ho, hquorum, hall⟩ := h o txHash hl
    obtain ⟨c', hc', hevolves⟩ := he.evolves hc
    refine ⟨c', hc', (hevolves.owns o).mpr ho, ?_, fun o' ho' => ?_⟩
    · exact quorum_of (eachCandidate_ok_effect he hok txHash c' hc')
        (hevolves.ready hquorum.allReady)
    · exact he.locked_mono (hall o' ((hevolves.owns o').mp ho'))
  · exact ⟨c, hc, ho, quorum_of (eachCandidate_ok_effect he hok txHash c hc) hready, hall⟩

/-! ### One event -/

theorem eachCandidate_ok_step (event : InstantEvent) (h : EachCandidate CTxLockCandidate.Ok m) :
    EachCandidate CTxLockCandidate.Ok (m.step hash (env, event)) := by
  rcases eq_or_ne event .checkAndRemove with rfl | hne
  · exact h.checkAndRemove
  · exact (effects_step hne).invariant (fun _ _ he h => eachCandidate_ok_effect he h) h

theorem lockedQuorum_step {event : InstantEvent} (hne : event ≠ .checkAndRemove)
    (hok : EachCandidate CTxLockCandidate.Ok m) (h : LockedQuorum m) :
    LockedQuorum (m.step hash (env, event)) ∧ KeepsLocked hash m (env, event) := by
  constructor
  · have hboth : EachCandidate CTxLockCandidate.Ok (m.step hash (env, event)) ∧
        LockedQuorum (m.step hash (env, event)) := by
      apply (effects_step hne).invariant (I := fun m => EachCandidate CTxLockCandidate.Ok m ∧
        LockedQuorum m) _ ⟨hok, h⟩
      exact fun _ _ he h => ⟨eachCandidate_ok_effect he h.1, h.2.effect h.1 he⟩
    exact hboth.2
  · intro o txHash hl
    exact .inl <| (effects_step hne).invariant (fun _ _ he h => he.locked_mono h) hl

theorem lockedQuorum_checkAndRemove (h : LockedQuorum m) :
    LockedQuorum (m.checkAndRemove env) ∧ KeepsLocked hash m (env, .checkAndRemove) ↔
      ExpirySparesLocks env m := by
  constructor
  · rintro ⟨-, hkeeps⟩ o txHash hfree hl
    rcases hkeeps o txHash hl with hl' | ⟨-, hexpires⟩
    · exact absurd hfree (lookup_locked_checkAndRemove.mp hl').1
    · exact hexpires
  · intro hspares
    refine ⟨fun o txHash hl => ?_, fun o txHash hl => ?_⟩
    · obtain ⟨hfree, hl⟩ := lookup_locked_checkAndRemove.mp hl
      obtain ⟨c, hc, ho, hquorum, hall⟩ := h o txHash hl
      have hstay : ∀ c, ¬ Expires env m txHash c := by
        intro c' hexpires
        have hcc : c = c' := Option.some.inj (hc.symm.trans hexpires.1)
        exact hfree ⟨txHash, c', hexpires, hcc ▸ ho⟩
      refine ⟨c, lookup_candidates_checkAndRemove.mpr ⟨hc, hstay c⟩, ho, hquorum, fun o' ho' => ?_⟩
      refine lookup_locked_checkAndRemove.mpr ⟨fun hfree' => ?_, hall o' ho'⟩
      obtain ⟨c', hexpires⟩ := hspares o' txHash hfree' (hall o' ho')
      exact hstay c' hexpires
    · rcases Classical.em (Frees env m o) with hfree | hfree
      · exact .inr ⟨rfl, hspares o txHash hfree hl⟩
      · exact .inl (lookup_locked_checkAndRemove.mpr ⟨hfree, hl⟩)

/-! ### Runs -/

/-- The event leaves every locked outpoint with a quorum and unlocks expired candidates only. -/
def LocksStand (hash : UInt256 → COutPoint → COutPoint → UInt256) (m : CInstantSend)
    (e : InstantEnv × InstantEvent) : Prop :=
  LockedQuorum (m.step hash e) ∧ KeepsLocked hash m e

/-- An expiry does not meet outpoints that a candidate which stays has locked. -/
def SparesLocks (m : CInstantSend) (e : InstantEnv × InstantEvent) : Prop :=
  e.2 = .checkAndRemove → ExpirySparesLocks e.1 m

/-- **Locked implies quorum.**  Along a run locked outpoints have a quorum, stand or fall
together and fall only when their candidate expires, exactly if every expiry spares the locks of
the candidates that stay. -/
theorem locked_quorum_iff (hash : UInt256 → COutPoint → COutPoint → UInt256)
    (es : List (InstantEnv × InstantEvent)) :
    Runs.Admits (LocksStand hash) (step hash) init es ↔
      Runs.Admits SparesLocks (step hash) init es := by
  apply Runs.admits_iff (I := fun m => EachCandidate CTxLockCandidate.Ok m ∧ LockedQuorum m)
  · rintro m ⟨env, event⟩ ⟨hok, h⟩
    rcases eq_or_ne event .checkAndRemove with rfl | hne
    · have hexpiry := @lockedQuorum_checkAndRemove hash env m h
      exact hexpiry.trans ⟨fun hspares _ => hspares, fun hspares => hspares rfl⟩
    · exact ⟨fun _ he => absurd he hne, fun _ => lockedQuorum_step hne hok h⟩
  · exact fun m e hI he => ⟨eachCandidate_ok_step e.2 hI.1, he.1⟩
  · exact ⟨eachCandidate_init _, fun o txHash hl => absurd hl (by simp [init])⟩

/-- Two transactions spend one output.  One is mined, the other locked with all its inputs; then
the first expires. -/
def lockLost : List (InstantEnv × InstantEvent) :=
  eventsAt 0 ([.processTxLockRequest (sampleRequest 11 [⟨1, 0⟩]),
      .processTxLockRequest (sampleRequest 12 [⟨1, 0⟩, ⟨2, 0⟩]),
      .chain (.syncTransaction (sampleRequest 11 [⟨1, 0⟩]) 10)] ++
    sampleVotes 12 ⟨1, 0⟩ sixMasternodes ++ sampleVotes 12 ⟨2, 0⟩ sixMasternodes ++
    [.chain (.updatedBlockTip 40)])

/-- The locked transaction does not expire, but one of its two outpoints is unlocked. -/
theorem lock_lost :
    ((lockLost.foldl (step sampleHash) init).mapTxLockCandidates.lookup 12).any
        (fun c => !c.isExpired (sampleEnv 0) 40) = true ∧
      (lockLost.foldl (step sampleHash) init).mapLockedOutpoints.lookup ⟨1, 0⟩ = some 12 ∧
      (lockLost.foldl (step sampleHash) init).pCurrentBlockIndex = some 40 ∧
      ((lockLost.foldl (step sampleHash) init).step sampleHash
        (sampleEnv 0, .checkAndRemove)).mapLockedOutpoints.lookup ⟨1, 0⟩ = none ∧
      ¬ LockedQuorum ((lockLost.foldl (step sampleHash) init).step sampleHash
        (sampleEnv 0, .checkAndRemove)) := by
  have hfirst : ((lockLost.foldl (step sampleHash) init).step sampleHash
      (sampleEnv 0, .checkAndRemove)).mapLockedOutpoints.lookup ⟨1, 0⟩ = none := by
    decide +kernel
  refine ⟨by decide +kernel, by decide +kernel, by decide +kernel, hfirst, fun h => ?_⟩
  obtain ⟨c, hc, -, -, hall⟩ := h ⟨2, 0⟩ 12 (by decide +kernel)
  have howns : (((lockLost.foldl (step sampleHash) init).step sampleHash
      (sampleEnv 0, .checkAndRemove)).mapTxLockCandidates.lookup 12).any
        (fun c => decide (c.Owns ⟨1, 0⟩)) = true := by
    decide +kernel
  rw [hc, Option.any_some, decide_eq_true_eq] at howns
  exact absurd (hfirst.symm.trans (hall ⟨1, 0⟩ howns)) (by simp)

end CInstantSend

end Stonecoin
