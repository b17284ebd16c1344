/-
Two transactions that spend one output cannot both have a quorum, as long as nothing that
was voted is forgotten.

`mapVotedOutpoints` tells under which transactions to look for an earlier vote of a
masternode.  The votes are sound ballots (`Quorums.Sound`): every effect keeps them so.  The
expiry of a candidate erases the record of its outputs for all transactions, and then the
masternodes can vote again.

  * `lock_agreement`: no two quorums for one output in any run that spares the votes of the
                       candidates that stay.
-/
import Stonecoin.InstantSendSteps
import Stonecoin.Quorums
import Stonecoin.Runs

namespace Stonecoin

namespace CInstantSend

variable {hash : UInt256 → COutPoint → COutPoint → UInt256} {env : InstantEnv}
  {m m' : CInstantSend} {valid : COutPoint → Finset COutPoint}

/-- No two transactions both have a quorum for one output. -/
def Agreement (m : CInstantSend) : Prop :=
  ∀ txHash txHash' c c' o, m.mapTxLockCandidates.lookup txHash = some c →
    m.mapTxLockCandidates.lookup txHash' = some c' →
    c.isReady o = true → c'.isReady o = true → txHash = txHash'

/-- Only these masternodes vote on an output. -/
def VotesFrom (valid : COutPoint → Finset COutPoint) (env : InstantEnv) : Prop :=
  ∀ vote : CTxLockVote, vote.isValid env = true → vote.outpointMasternode ∈ valid vote.outpoint

/-- The votes are sound ballots, each recorded for its output. -/
structure VotesAgree (valid : COutPoint → Finset COutPoint) (m : CInstantSend) : Prop where
  recorded : ∀ txHash o mn, m.HasVoted txHash o mn → txHash ∈ m.votedHashes o
  sound : Quorums.Sound valid m.HasVoted

theorem votesAgree_init : VotesAgree valid init := by
  have hnone : ∀ txHash o mn, ¬ init.HasVoted txHash o mn := by
    rintro txHash o mn ⟨c, hc, -⟩
    exact absurd hc (by simp [init])
  exact ⟨fun _ _ _ h => absurd h (hnone _ _ _),
    ⟨fun _ _ _ _ h => absurd h (hnone _ _ _), fun _ _ _ h => absurd h (hnone _ _ _)⟩⟩

theorem VotesAgree.eq_of_hasVoted (h : VotesAgree valid m) {vote : CTxLockVote}
    (hconflict : NoConflict env m vote) {txHash : UInt256}
    (hv : m.HasVoted txHash vote.outpoint vote.outpointMasternode) : txHash = vote.txHash := by
  rcases eq_or_ne txHash vote.txHash with he | hne
  · exact he
  · have hno := hconflict txHash (h.recorded _ _ _ hv) hne
    obtain ⟨c, hc, hv⟩ := hv
    unfold hasVotedIn at hno
    rw [hc] at hno
    exact absurd (hv.symm.trans hno) (by decide)

theorem VotesAgree.effect (hfrom : VotesFrom valid env) (he : Effect env m m')
    (h : VotesAgree valid m) : VotesAgree valid m' := by
  have hsubset := he.votedHashes_subset
  rcases he.hasVoted with hle | ⟨vote, hvalid, hconflict, hmem, hle⟩
  · exact ⟨fun txHash o mn hv => hsubset o (h.recorded _ _ _ (hle _ _ _ hv)), h.sound.mono hle⟩
  · refine ⟨fun txHash o mn hv => ?_, h.sound.cast (hfrom vote hvalid) ?_ hle⟩
    · rcases hle _ _ _ hv with hv | ⟨rfl, rfl, -⟩
      · exact hsubset o (h.recorded _ _ _ hv)
      · exact hmem
    · intro txHash hv
      exact h.eq_of_hasVoted hconflict hv

/-- When candidates expire, no candidate that stays has a vote on an output of theirs. -/
def ExpirySparesVotes (env : InstantEnv) (m : CInstantSend) : Prop :=
  ∀ txHash c, m.mapTxLockCandidates.lookup txHash = some c → ¬ Expires env m txHash c →
    ∀ o mn, Frees env m o → c.hasMasternodeVoted o mn = false

theorem VotesAgree.checkAndRemove (hspares : ExpirySparesVotes env m) (h : VotesAgree valid m) :
    VotesAgree valid (m.checkAndRemove env) := by
  refine ⟨fun txHash o mn hv => ?_, h.sound.mono fun txHash o mn hv => ?_⟩
  · obtain ⟨c, hc, hstay, hv⟩ := hasVoted_checkAndRemove hv
    refine mem_votedHashes_checkAndRemove.mpr ⟨fun hfree => ?_, h.recorded _ _ _ ⟨c, hc, hv⟩⟩
    rw [hspares txHash c hc hstay o mn hfree] at hv
    exact absurd hv (by decide)
  · obtain ⟨c, hc, -, hv⟩ := hasVoted_checkAndRemove hv
    exact ⟨c, hc, hv⟩

theorem VotesAgree.step {event : InstantEvent} (hfrom : VotesFrom valid env)
    (hspares : event = .checkAndRemove → ExpirySparesVotes env m) (h : VotesAgree valid m) :
    VotesAgree valid (m.step hash (env, event)) := by
  rcases eq_or_ne event .checkAndRemove with rfl | hne
  · exact h.checkAndRemove (hspares rfl)
  · exact (effects_step hne).invariant (fun _ _ he h => h.effect hfrom he) h

theorem VotesAgree.agreement (hcard : ∀ o, (valid o).card ≤ COutPointLock.SIGNATURES_TOTAL)
    (h : VotesAgree valid m) : Agreement m := by
  intro txHash txHash' c c' o hc hc' hready hready'
  obtain ⟨A, hA, hvA⟩ := CTxLockCandidate.exists_voters_of_isReady hready
  obtain ⟨B, hB, hvB⟩ := CTxLockCandidate.exists_voters_of_isReady hready'
  apply h.sound.agreement (r := o) (A := A) (B := B)
  · exact fun mn hmn => ⟨c, hc, hvA mn hmn⟩
  · exact fun mn hmn => ⟨c', hc', hvB mn hmn⟩
  · have htotal := hcard o
    have hsix : COutPointLock.SIGNATURES_REQUIRED = 6 := rfl
    have hten : COutPointLock.SIGNATURES_TOTAL = 10 := rfl
    omega

/-- The condition on an event: only certain masternodes vote, and an expiry spares the votes of
the candidates that stay. -/
def SparesVotes (valid : COutPoint → Finset COutPoint) (m : CInstantSend)
    (e : InstantEnv × InstantEvent) : Prop :=
  VotesFrom valid e.1 ∧ (e.2 = .checkAndRemove → ExpirySparesVotes e.1 m)

/-- **Lock agreement.**  If at most ten masternodes may vote on an output and every expiry
spares the votes of the candidates that stay, no two transactions ever both have a quorum for
one output. -/
theorem lock_agreement (hash : UInt256 → COutPoint → COutPoint → UInt256)
    (valid : COutPoint → Finset COutPoint)
    (hcard : ∀ o, (valid o).card ≤ COutPointLock.SIGNATURES_TOTAL)
    (es : List (InstantEnv × InstantEvent))
    (hrun : Runs.Run (Runs.Guarded (SparesVotes valid) (step hash)) init es m) : Agreement m := by
  have hstep : ∀ m e m', VotesAgree valid m →
      Runs.Guarded (SparesVotes valid) (CInstantSend.step hash) m e m' → VotesAgree valid m' := by
    rintro m ⟨env, event⟩ m' h ⟨⟨hfrom, hspares⟩, rfl⟩
    exact h.step hfrom hspares
  exact (hrun.invariant hstep votesAgree_init).agreement hcard

/-- The output that the concrete runs are about. -/
def contested : COutPoint := ⟨1, 0⟩

theorem votesFrom_sampleEnv (getTime : ℤ) :
    VotesFrom (fun _ => sixMasternodes.toFinset) (sampleEnv getTime) := by
  intro vote hvalid
  rw [List.mem_toFinset]
  rcases Decidable.em (vote.outpointMasternode ∈ sixMasternodes) with hmem | hmem
  · exact hmem
  · have hhas : (sampleEnv getTime).has vote.outpointMasternode = false := by
      show (if vote.outpointMasternode ∈ sixMasternodes then some [] else none).isSome = false
      rw [if_neg hmem]
      rfl
    simp [CTxLockVote.isValid, hhas] at hvalid

def lockedAndMined : List InstantEvent :=
  [.processTxLockRequest (sampleRequest 11 [contested])] ++
    sampleVotes 11 contested sixMasternodes ++
    [.chain (.syncTransaction (sampleRequest 11 [contested]) 10), .chain (.updatedBlockTip 40)]

/-- The candidate may expire, since there is no other. -/
theorem lock_agreement_of_spares :
    Agreement (step sampleHash ((eventsAt 0 lockedAndMined).foldl (step sampleHash) init)
      (sampleEnv 0, .checkAndRemove)) := by
  have hvotes : ∀ s : CInstantSend, ∀ e ∈ eventsAt 0 lockedAndMined,
      SparesVotes (fun _ => sixMasternodes.toFinset) s e := by
    intro s e he
    obtain ⟨event, hevent, rfl⟩ := List.mem_map.mp he
    have hne : ∀ event ∈ lockedAndMined, event ≠ .checkAndRemove := by
      simp only [lockedAndMined, sampleVotes, List.forall_mem_append, List.forall_mem_map,
        List.forall_mem_cons]
      simp
    exact ⟨votesFrom_sampleEnv 0, fun he => absurd he (hne event hevent)⟩
  have hexpired : ∀ e ∈ ((eventsAt 0 lockedAndMined).foldl
      (step sampleHash) init).mapTxLockCandidates.entries,
      e.2.isExpired (sampleEnv 0) 40 = true := by
    decide +kernel
  have hspares : ExpirySparesVotes (sampleEnv 0)
      ((eventsAt 0 lockedAndMined).foldl (step sampleHash) init) := by
    intro txHash c hc hstay
    refine absurd ⟨hc, 40, by decide +kernel, ?_⟩ hstay
    exact hexpired ⟨txHash, c⟩ (AList.mem_lookup_iff.mp hc)
  apply lock_agreement sampleHash (fun _ => sixMasternodes.toFinset) (fun _ => by decide)
  exact (Runs.Run.of_forall hvotes).append
    (.cons ⟨⟨votesFrom_sampleEnv 0, fun _ => hspares⟩, rfl⟩ (.nil _))

/-- Three transactions spend one output, and one of them is mined.  Another is locked; when the
first expires, the same votes lock the third. -/
def doubleVotes : List (InstantEnv × InstantEvent) :=
  eventsAt 0 ([.processTxLockRequest (sampleRequest 11 [contested]),
      .processTxLockRequest (sampleRequest 12 [contested]),
      .processTxLockRequest (sampleRequest 13 [contested]),
      .chain (.syncTransaction (sampleRequest 11 [contested]) 10)] ++
    sampleVotes 12 contested sixMasternodes ++
    [.chain (.updatedBlockTip 40), .checkAndRemove] ++
    sampleVotes 13 contested sixMasternodes)

theorem two_quorums : (∀ e ∈ doubleVotes, VotesFrom (fun _ => sixMasternodes.toFinset) e.1) ∧
    sixMasternodes.toFinset.card ≤ COutPointLock.SIGNATURES_TOTAL ∧
    ¬ Agreement (doubleVotes.foldl (step sampleHash) init) := by
  refine ⟨fun e he => ?_, by decide, fun hagree => ?_⟩
  · obtain ⟨event, -, rfl⟩ := List.mem_map.mp he
    exact votesFrom_sampleEnv 0
  · have h12 : ((doubleVotes.foldl (step sampleHash) init).mapTxLockCandidates.lookup 12).any
        (·.isReady contested) = true := by decide +kernel
    have h13 : ((doubleVotes.foldl (step sampleHash) init).mapTxLockCandidates.lookup 13).any
        (·.isReady contested) = true := by decide +kernel
    obtain ⟨c, hc, hready⟩ := (Option.any_eq_true _ _).mp h12
    obtain ⟨c', hc', hready'⟩ := (Option.any_eq_true _ _).mp h13
    exact absurd (hagree 12 13 c c' contested hc hc' hready hready') (by decide)

end CInstantSend

end Stonecoin
