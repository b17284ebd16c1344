/-
What one event can do to the candidates, the votes they hold and the locked outpoints.

Every operation but `CheckAndRemove` is a chain of a few elementary changes (`Effect`): a
candidate is made, gets a confirmed height, gets a vote or refuses one, or has its inputs
locked.  What such a change keeps, every operation keeps (`Effects.invariant`).
-/
import Stonecoin.InstantSend
import Stonecoin.MapMerge
import Mathlib.Logic.Relation

namespace Stonecoin

namespace CInstantSend

variable {hash : UInt256 → COutPoint → COutPoint → UInt256} {env : InstantEnv}
  {m m' m'' : CInstantSend}

/-! ### Elementary changes -/

/-- Candidates, voted and locked outpoints are the same. -/
structure SameLocks (m m' : CInstantSend) : Prop where
  candidates : m'.mapTxLockCandidates = m.mapTxLockCandidates
  voted : m'.mapVotedOutpoints = m.mapVotedOutpoints
  locked : m'.mapLockedOutpoints = m.mapLockedOutpoints

/-- No other transaction has a vote of this masternode for the outpoint. -/
def NoConflict (env : InstantEnv) (m : CInstantSend) (vote : CTxLockVote) : Prop :=
  ∀ txHash ∈ m.votedHashes vote.outpoint, txHash ≠ vote.txHash →
    m.hasVotedIn env vote.outpoint vote.outpointMasternode txHash = false

/-- No input of the request is locked by another transaction. -/
def NoLockConflict (m : CInstantSend) (c : CTxLockCandidate) : Prop :=
  ∀ txin ∈ c.txLockRequest.vin, ∀ txHash,
    m.mapLockedOutpoints.lookup txin.prevout = some txHash → txHash = c.txLockRequest.hash

/-- One elementary change. -/
inductive Effect (env : InstantEnv) : CInstantSend → CInstantSend → Prop
  | other {m m' : CInstantSend} (h : SameLocks m m') : Effect env m m'
  | confirm {m : CInstantSend} {txHash : UInt256} {c : CTxLockCandidate} (nHeightNew : ℤ)
      (hc : m.mapTxLockCandidates.lookup txHash = some c) :
      Effect env m (m.setCandidate txHash { c with nConfirmedHeight := nHeightNew })
  | create {m : CInstantSend} {txLockRequest : CTxLockRequest} {fRequireUnspent : Bool}
      (hvalid : txLockRequest.isValid env fRequireUnspent = true)
      (hc : m.mapTxLockCandidates.lookup txLockRequest.hash = none) :
      Effect env m (m.setCandidate txLockRequest.hash (.of txLockRequest))
  | counted {m : CInstantSend} {vote : CTxLockVote} {c c' : CTxLockCandidate}
      (hvalid : vote.isValid env = true)
      (hc : m.mapTxLockCandidates.lookup vote.txHash = some c)
      (hadd : c.addVote vote = some c') (hconflict : NoConflict env m vote) :
      Effect env m ((m.setCandidate vote.txHash c').addVotedOutpoint vote.outpoint vote.txHash)
  | refused {m : CInstantSend} {vote : CTxLockVote} {c : CTxLockCandidate}
      (hvalid : vote.isValid env = true)
      (hc : m.mapTxLockCandidates.lookup vote.txHash = some c) (hadd : c.addVote vote = none) :
      Effect env m (m.addVotedOutpoint vote.outpoint vote.txHash)
  | locked {m : CInstantSend} {txHash : UInt256} {c : CTxLockCandidate}
      (hc : m.mapTxLockCandidates.lookup txHash = some c)
      (hready : c.isAllOutPointsReady = true) (hconflict : NoLockConflict m c) :
      Effect env m (m.lockTransactionInputs c)

/-- A chain of elementary changes. -/
abbrev Effects (env : InstantEnv) : CInstantSend → CInstantSend → Prop :=
  Relation.ReflTransGen (Effect env)

theorem effects_refl (m : CInstantSend) : Effects env m m := Relation.ReflTransGen.refl

theorem Effect.effects (h : Effect env m m') : Effects env m m' := Relation.ReflTransGen.single h

theorem SameLocks.effects (h : SameLocks m m') : Effects env m m' := (Effect.other h).effects

theorem effects_foldl {ι : Type} {f : CInstantSend → ι → CInstantSend}
    (hf : ∀ m i, Effects env m (f m i)) : ∀ (l : List ι) (m : CInstantSend),
      Effects env m (l.foldl f m)
  | [], m => effects_refl m
  | i :: l, m => (hf m i).trans (effects_foldl hf l (f m i))

theorem Effects.invariant {I : CInstantSend → Prop}
    (hI : ∀ m m', Effect env m m' → I m → I m') (h : Effects env m m') (h0 : I m) : I m' := by
  induction h with
  | refl => exact h0
  | tail _ he ih => exact hI _ _ he ih

/-! ### Chain events -/

theorem sameLocks_setVoteHeight (nHeightNew : ℤ) (m : CInstantSend) (nVoteHash : UInt256) :
    SameLocks m (m.setVoteHeight nHeightNew nVoteHash) := by
  unfold setVoteHeight
  cases m.mapTxLockVotes.lookup nVoteHash <;> exact ⟨rfl, rfl, rfl⟩

theorem SameLocks.refl (m : CInstantSend) : SameLocks m m := ⟨rfl, rfl, rfl⟩

theorem SameLocks.trans (h : SameLocks m m') (h' : SameLocks m' m'') : SameLocks m m'' :=
  ⟨h'.candidates.trans h.candidates, h'.voted.trans h.voted, h'.locked.trans h.locked⟩

theorem sameLocks_foldl {ι : Type} {f : CInstantSend → ι → CInstantSend}
    (hf : ∀ m i, SameLocks m (f m i)) : ∀ (l : List ι) (m : CInstantSend),
      SameLocks m (l.foldl f m)
  | [], m => .refl m
  | i :: l, m => (hf m i).trans (sameLocks_foldl hf l (f m i))

/-- What the chain reports changes confirmed heights only. -/
structure Confirms (m m' : CInstantSend) : Prop where
  candidates : ∀ txHash c, m.mapTxLockCandidates.lookup txHash = some c →
    ∃ nHeight, m'.mapTxLockCandidates.lookup txHash = some { c with nConfirmedHeight := nHeight }
  voted : m'.mapVotedOutpoints = m.mapVotedOutpoints
  locked : m'.mapLockedOutpoints = m.mapLockedOutpoints

theorem SameLocks.confirms (h : SameLocks m m') : Confirms m m' := by
  refine ⟨fun txHash c hc => ⟨c.nConfirmedHeight, ?_⟩, h.voted, h.locked⟩
  rw [h.candidates]
  exact hc

theorem Confirms.trans (h : Confirms m m') (h' : Confirms m' m'') : Confirms m m'' := by
  refine ⟨fun txHash c hc => ?_, h'.voted.trans h.voted, h'.locked.trans h.locked⟩
  obtain ⟨n, hn⟩ := h.candidates txHash c hc
  obtain ⟨n', hn'⟩ := h'.candidates txHash _ hn
  exact ⟨n', hn'⟩

theorem syncCandidate_spec (txHash : UInt256) (nHeightNew : ℤ) :
    Effects env m (m.syncCandidate hash txHash nHeightNew) ∧
      Confirms m (m.syncCandidate hash txHash nHeightNew) := by
  unfold syncCandidate
  rcases hc : m.mapTxLockCandidates.lookup txHash with - | c
  · exact ⟨effects_refl m, (SameLocks.refl m).confirms⟩
  · have hvotes := sameLocks_foldl (sameLocks_setVoteHeight nHeightNew)
      ((c.mapOutPointLocks.entries.flatMap fun e =>
        e.2.mapMasternodeVotes.entries.map Sigma.snd).map (·.getHash hash))
      (m.setCandidate txHash { c with nConfirmedHeight := nHeightNew })
    have hset : Confirms m (m.setCandidate txHash { c with nConfirmedHeight := nHeightNew }) := by
      refine ⟨fun txHash' c' hc' => ?_, rfl, rfl⟩
      show ∃ nHeight, (m.mapTxLockCandidates.insert txHash _).lookup txHash' = _
      rcases eq_or_ne txHash' txHash with rfl | hne
      · rw [AList.lookup_insert]
        rw [hc, Option.some.injEq] at hc'
        subst hc'
        exact ⟨nHeightNew, rfl⟩
      · rw [AList.lookup_insert_ne hne]
        exact ⟨c'.nConfirmedHeight, hc'⟩
    exact ⟨(Effect.confirm nHeightNew hc).effects.trans hvotes.effects,
      hset.trans hvotes.confirms⟩

theorem chainEvent_spec (event : ChainEvent) :
    Effects env m (m.chainEvent hash env event) ∧ Confirms m (m.chainEvent hash env event) := by
  cases event with
  | updatedBlockTip nHeight =>
    have h : SameLocks m (m.chainEvent hash env (.updatedBlockTip nHeight)) := ⟨rfl, rfl, rfl⟩
    exact ⟨h.effects, h.confirms⟩
  | syncTransaction tx nHeightNew =>
    show Effects env m (m.syncTransaction hash env tx nHeightNew) ∧
      Confirms m (m.syncTransaction hash env tx nHeightNew)
    unfold syncTransaction
    split_ifs
    · exact ⟨effects_refl m, (SameLocks.refl m).confirms⟩
    · obtain ⟨heff, hconf⟩ : Effects env m (m.syncCandidate hash tx.hash nHeightNew) ∧
          Confirms m (m.syncCandidate hash tx.hash nHeightNew) :=
        syncCandidate_spec tx.hash nHeightNew
      have horphans : ∀ (l : List (Sigma fun _ : UInt256 => CTxLockVote)) (m : CInstantSend),
          SameLocks m (l.foldl (fun m e => m.setOrphanVoteHeight env nHeightNew e.1) m) :=
        sameLocks_foldl fun m e => ⟨rfl, rfl, rfl⟩
      exact ⟨heff.trans (horphans _ _).effects, hconf.trans (horphans _ _).confirms⟩

theorem chainEvents_spec : ∀ (events : List ChainEvent) (m : CInstantSend),
    Effects env m (events.foldl (chainEvent hash env) m) ∧
      Confirms m (events.foldl (chainEvent hash env) m)
  | [], m => ⟨effects_refl m, (SameLocks.refl m).confirms⟩
  | event :: events, m => by
    have h : Effects env m (m.chainEvent hash env event) ∧
      Confirms m (m.chainEvent hash env event) := chainEvent_spec event
    have hs := chainEvents_spec events (m.chainEvent hash env event)
    exact ⟨h.1.trans hs.1, h.2.trans hs.2⟩

/-! ### Completing a lock -/

variable {c : CTxLockCandidate}

theorem noLockConflict_of_any
    (h : ¬ (c.txLockRequest.vin.any fun txin =>
      match m.mapLockedOutpoints.lookup txin.prevout with
      | none => false
      | some hashConflicting => c.txLockRequest.hash ≠ hashConflicting) = true) :
    NoLockConflict m c := by
  intro txin htxin txHash hl
  rw [Bool.not_eq_true, List.any_eq_false] at h
  have hi := h txin htxin
  rw [hl] at hi
  exact (by simpa using hi : c.txLockRequest.hash = txHash).symm

theorem resolveConflicts_spec {c : CTxLockCandidate} (hready : c.isAllOutPointsReady = true) :
    Effects env m (m.resolveConflicts hash env c).2 ∧
      Confirms m (m.resolveConflicts hash env c).2 ∧
        ((m.resolveConflicts hash env c).1 = true → NoLockConflict m c) := by
  unfold resolveConflicts
  rw [hready]
  split_ifs with hkeep hnot hany
  · exact ⟨effects_refl m, (SameLocks.refl m).confirms, fun h => absurd h (by decide)⟩
  · exact absurd hnot (by decide)
  · exact ⟨effects_refl m, (SameLocks.refl m).confirms, fun h => absurd h (by decide)⟩
  · obtain ⟨heff, hconf⟩ := @chainEvents_spec hash env (env.resolveConflicts c.txLockRequest).2 m
    exact ⟨heff, hconf, fun _ => noLockConflict_of_any hany⟩

theorem effects_tryToFinalizeLockCandidate (txHash : UInt256) :
    Effects env m (m.tryToFinalizeLockCandidate hash env txHash) := by
  unfold tryToFinalizeLockCandidate
  rcases hc : m.mapTxLockCandidates.lookup txHash with - | c
  · exact effects_refl m
  dsimp only
  split_ifs with htry
  · have hready : c.isAllOutPointsReady = true := (Bool.and_eq_true_iff.mp htry).1
    obtain ⟨heff, hconf, hno⟩ := @resolveConflicts_spec hash env m c hready
    rcases hr : m.resolveConflicts hash env c with ⟨ok, m'⟩
    rw [hr] at heff hconf hno
    cases ok with
    | false => exact heff
    | true =>
      -- the candidate may have been confirmed meanwhile, its locks are the same
      obtain ⟨n, hn⟩ := hconf.candidates txHash c hc
      have hno' : NoLockConflict m' { c with nConfirmedHeight := n } := by
        intro txin htxin txHash' hl
        rw [hconf.locked] at hl
        exact hno rfl txin htxin txHash' hl
      have hlock : Effect env m' (m'.lockTransactionInputs { c with nConfirmedHeight := n }) :=
        .locked hn hready hno'
      exact heff.tail hlock
  · exact effects_refl m

/-! ### Votes -/

variable {vote : CTxLockVote}

theorem addVote_eq_some (h : m.addVote vote = some m') :
    ∃ c c', m.mapTxLockCandidates.lookup vote.txHash = some c ∧ c.addVote vote = some c' ∧
      m' = m.setCandidate vote.txHash c' := by
  unfold addVote at h
  rcases hc : m.mapTxLockCandidates.lookup vote.txHash with - | c
  · simp [hc] at h
  · rw [hc] at h
    obtain ⟨c', hc', he⟩ := Option.map_eq_some_iff.mp h
    exact ⟨c, c', rfl, hc', he.symm⟩

theorem sameLocks_storeVote (vote : CTxLockVote) : SameLocks m (m.storeVote hash vote) :=
  ⟨rfl, rfl, rfl⟩

variable {txHash : UInt256}

theorem effects_voteOutpoint {outpoint : COutPoint}
    (h : m.voteOutpoint hash env txHash outpoint = some m') : Effects env m m' := by
  unfold voteOutpoint at h
  dsimp only at h
  split_ifs at h with hheight hrank htop hvoted
  · exact Option.some.inj h ▸ effects_refl m
  · exact Option.some.inj h ▸ effects_refl m
  · exact Option.some.inj h ▸ effects_refl m
  · rcases hs : CTxLockVote.sign env txHash outpoint with - | vote
    · simp [hs] at h
    rw [hs] at h
    dsimp only at h
    split_ifs at h with hcheck
    obtain ⟨htx, hout, hmn⟩ := CTxLockVote.sign_eq_some hs
    subst htx hout
    have hvalid : vote.isValid env = true := by
      apply CTxLockVote.isValid_of_checkSignature hheight
      · rw [hmn]
        exact hrank
      · rw [hmn]
        exact htop
      · simpa using hcheck
    have hstore : Effects env m (m.storeVote hash vote) := (sameLocks_storeVote vote).effects
    rcases ha : (m.storeVote hash vote).addVote vote with - | m₁
    · rw [ha] at h
      exact Option.some.inj h ▸ hstore
    · rw [ha] at h
      obtain ⟨c, c', hc, hadd, rfl⟩ := addVote_eq_some ha
      have hconflict : NoConflict env (m.storeVote hash vote) vote := by
        intro txHash' hmem _
        rw [hmn, ← Bool.not_eq_true]
        exact fun hv => hvoted (Finset.filter_nonempty_iff.mpr ⟨txHash', hmem, hv⟩)
      exact Option.some.inj h ▸ hstore.tail (.counted hvalid hc hadd hconflict)

theorem effects_voteLoop (txHash : UInt256) : ∀ (outpoints : List COutPoint) (m : CInstantSend),
    Effects env m (m.voteLoop hash env txHash outpoints)
  | [], m => effects_refl m
  | outpoint :: outpoints, m => by
    unfold voteLoop
    rcases hv : m.voteOutpoint hash env txHash outpoint with - | m'
    · exact effects_refl m
    · exact (effects_voteOutpoint hv).trans (effects_voteLoop txHash outpoints m')

theorem effects_vote (txHash : UInt256) : Effects env m (m.vote hash env txHash) := by
  unfold vote
  split_ifs
  · exact effects_refl m
  · cases m.mapTxLockCandidates.lookup txHash with
    | none => exact effects_refl m
    | some c => exact effects_voteLoop txHash _ m

theorem sameLocks_rateLimit (vote : CTxLockVote) : SameLocks m (m.rateLimit env vote).2 := by
  unfold rateLimit
  split_ifs <;> exact ⟨rfl, rfl, rfl⟩

section Reprocess

variable {reprocess : CInstantSend → CTxLockRequest → CInstantSend}

theorem processTxLockVoteWith_orphan (hvalid : vote.isValid env = true)
    (hc : m.mapTxLockCandidates.lookup vote.txHash = none) :
    m.processTxLockVoteWith hash env reprocess vote =
      m.processOrphanVote hash env reprocess vote := by
  unfold processTxLockVoteWith
  rw [hvalid, hc]
  rfl

theorem processTxLockVoteWith_candidate (hvalid : vote.isValid env = true)
    (hc : m.mapTxLockCandidates.lookup vote.txHash = some c) :
    m.processTxLockVoteWith hash env reprocess vote = m.processCandidateVote hash env vote := by
  unfold processTxLockVoteWith
  rw [hvalid, hc]
  rfl

variable (hre : ∀ m txLockRequest, Effects env m (reprocess m txLockRequest))
include hre

theorem effects_processOrphanVote (vote : CTxLockVote) :
    Effects env m (m.processOrphanVote hash env reprocess vote).2 := by
  unfold processOrphanVote
  dsimp only
  split_ifs with hseen
  · exact (sameLocks_rateLimit vote).effects
  · have hstore : SameLocks m (m.storeOrphan hash vote) := ⟨rfl, rfl, rfl⟩
    cases (m.storeOrphan hash vote).findLockRequest vote.txHash with
    | none => exact hstore.effects.trans (sameLocks_rateLimit vote).effects
    | some txLockRequest =>
      dsimp only
      split_ifs
      · exact hstore.effects.trans (hre _ _)
      · exact hstore.effects.trans (sameLocks_rateLimit vote).effects

omit hre in
theorem effects_processCandidateVote (hvalid : vote.isValid env = true)
    (hc : m.mapTxLockCandidates.lookup vote.txHash = some c) :
    Effects env m (m.processCandidateVote hash env vote).2 := by
  unfold processCandidateVote
  split_ifs with hvoted
  · exact effects_refl m
  dsimp only
  have hconflict : NoConflict env m vote := by
    intro txHash hmem hne
    rw [← Bool.not_eq_true]
    exact fun hv => hvoted (Finset.filter_nonempty_iff.mpr ⟨txHash, hmem, hne, hv⟩)
  unfold addVote
  rw [show (m.addVotedOutpoint vote.outpoint vote.txHash).mapTxLockCandidates.lookup vote.txHash =
    some c from hc]
  dsimp only
  rcases ha : c.addVote vote with - | c'
  · exact (Effect.refused hvalid hc ha).effects
  · exact (Effect.counted hvalid hc ha hconflict).effects.trans
      (effects_tryToFinalizeLockCandidate vote.txHash)

theorem effects_processTxLockVoteWith (vote : CTxLockVote) :
    Effects env m (m.processTxLockVoteWith hash env reprocess vote).2 := by
  unfold processTxLockVoteWith
  split_ifs with hvalid
  · exact effects_refl m
  · rcases hc : m.mapTxLockCandidates.lookup vote.txHash with - | c
    · exact effects_processOrphanVote hre vote
    · exact effects_processCandidateVote (by simpa using hvalid) hc

theorem effects_replayOrphan (e : Sigma fun _ : UInt256 => CTxLockVote) :
    Effects env m (m.replayOrphan hash env reprocess e) := by
  have h : Effects env m (m.processTxLockVoteWith hash env reprocess e.2).2 :=
    effects_processTxLockVoteWith hre e.2
  unfold replayOrphan
  rcases hr : m.processTxLockVoteWith hash env reprocess e.2 with ⟨ok, m'⟩
  rw [hr] at h
  cases ok with
  | false => exact h
  | true => exact h.trans (SameLocks.effects ⟨rfl, rfl, rfl⟩)

omit hre in
theorem effects_createTxLockCandidate (txLockRequest : CTxLockRequest) :
    Effects env m (m.createTxLockCandidate env txLockRequest).2 := by
  unfold createTxLockCandidate
  split_ifs with hvalid hknown
  · exact effects_refl m
  · exact effects_refl m
  · exact (Effect.create (by simpa using hvalid) (by simpa using hknown)).effects

theorem effects_processTxLockRequestWith (txLockRequest : CTxLockRequest) :
    Effects env m (m.processTxLockRequestWith hash env reprocess txLockRequest).2 := by
  unfold processTxLockRequestWith
  split_ifs
  · exact effects_refl m
  · have hcreate : Effects env m (m.createTxLockCandidate env txLockRequest).2 :=
      effects_createTxLockCandidate txLockRequest
    rcases hr : m.createTxLockCandidate env txLockRequest with ⟨ok, m'⟩
    rw [hr] at hcreate
    cases ok with
    | false => exact hcreate
    | true =>
      exact hcreate.trans <| (effects_vote txLockRequest.hash).trans <|
        (effects_foldl (fun m e => effects_replayOrphan hre e) _ _).trans <|
          effects_tryToFinalizeLockCandidate txLockRequest.hash

end Reprocess

theorem effects_reprocess : ∀ (depth : ℕ) (m : CInstantSend) (txLockRequest : CTxLockRequest),
    Effects env m (reprocess hash env depth m txLockRequest)
  | 0, m, _ => effects_refl m
  | depth + 1, _, txLockRequest =>
    effects_processTxLockRequestWith (effects_reprocess depth) txLockRequest

theorem effects_processTxLockVote (vote : CTxLockVote) :
    Effects env m (m.processTxLockVote hash env vote).2 :=
  effects_processTxLockVoteWith (effects_reprocess 1) vote

theorem effects_processMessage (vote : CTxLockVote) :
    Effects env m (m.processMessage hash env vote) := by
  unfold processMessage
  dsimp only
  split_ifs
  · exact effects_refl m
  · exact effects_refl m
  · exact (sameLocks_storeVote _).effects.trans (effects_processTxLockVote _)

theorem effects_step {event : InstantEvent} (h : event ≠ .checkAndRemove) :
    Effects env m (m.step hash (env, event)) := by
  cases event with
  | message vote => exact effects_processMessage vote
  | processTxLockVote vote => exact effects_processTxLockVote vote
  | processTxLockRequest txLockRequest =>
    exact effects_processTxLockRequestWith (effects_reprocess 0) txLockRequest
  | vote txHash => exact effects_vote txHash
  | acceptLockRequest txLockRequest => exact SameLocks.effects ⟨rfl, rfl, rfl⟩
  | rejectLockRequest txLockRequest => exact SameLocks.effects ⟨rfl, rfl, rfl⟩
  | chain event => exact (chainEvent_spec event).1
  | checkAndRemove => exact absurd rfl h

/-! ### What the changes do to candidates -/

theorem lockTransactionInputs_candidates (c : CTxLockCandidate) :
    (m.lockTransactionInputs c).mapTxLockCandidates = m.mapTxLockCandidates := by
  unfold lockTransactionInputs
  split_ifs <;> rfl

theorem lockTransactionInputs_voted (c : CTxLockCandidate) :
    (m.lockTransactionInputs c).mapVotedOutpoints = m.mapVotedOutpoints := by
  unfold lockTransactionInputs
  split_ifs <;> rfl

def EachCandidate (P : UInt256 → CTxLockCandidate → Prop) (m : CInstantSend) : Prop :=
  ∀ txHash c, m.mapTxLockCandidates.lookup txHash = some c → P txHash c

theorem eachCandidate_init (P : UInt256 → CTxLockCandidate → Prop) : EachCandidate P init :=
  fun _ _ hc => absurd hc (by simp [init])

section EachCandidate

variable {P : UInt256 → CTxLockCandidate → Prop}

theorem EachCandidate.setCandidate (h : EachCandidate P m) (hc : P txHash c) :
    EachCandidate P (m.setCandidate txHash c) := by
  intro txHash' c' hl
  change (m.mapTxLockCandidates.insert txHash c).lookup txHash' = some c' at hl
  rcases eq_or_ne txHash' txHash with rfl | hne
  · rw [AList.lookup_insert, Option.some.injEq] at hl
    exact hl ▸ hc
  · rw [AList.lookup_insert_ne hne] at hl
    exact h txHash' c' hl

theorem EachCandidate.effect
    (hconfirm : ∀ txHash c n, P txHash c → P txHash { c with nConfirmedHeight := n })
    (hcreate : ∀ (txLockRequest : CTxLockRequest) fRequireUnspent,
      txLockRequest.isValid env fRequireUnspent = true → P txLockRequest.hash (.of txLockRequest))
    (hcounted : ∀ (vote : CTxLockVote) c c', P vote.txHash c → c.addVote vote = some c' →
      P vote.txHash c')
    (he : Effect env m m') (h : EachCandidate P m) : EachCandidate P m' := by
  cases he with
  | other hsame =>
    unfold EachCandidate
    rw [hsame.candidates]
    exact h
  | confirm nHeightNew hc => exact h.setCandidate (hconfirm _ _ nHeightNew (h _ _ hc))
  | create hvalid hc => exact h.setCandidate (hcreate _ _ hvalid)
  | counted hvalid hc hadd hconflict =>
    have hset := h.setCandidate (hcounted _ _ _ (h _ _ hc) hadd)
    exact hset
  | refused hvalid hc hadd => exact h
  | locked hc hready hconflict =>
    unfold EachCandidate
    rw [lockTransactionInputs_candidates]
    exact h

end EachCandidate

theorem Effect.evolves (he : Effect env m m') (hc : m.mapTxLockCandidates.lookup txHash = some c) :
    ∃ c', m'.mapTxLockCandidates.lookup txHash = some c' ∧ c.Evolves c' := by
  have hset : ∀ {txHash' : UInt256} {c₁ c₂ : CTxLockCandidate},
      m.mapTxLockCandidates.lookup txHash' = some c₁ → c₁.Evolves c₂ →
      ∃ c', (m.mapTxLockCandidates.insert txHash' c₂).lookup txHash = some c' ∧ c.Evolves c' := by
    intro txHash' c₁ c₂ hc₁ hevolves
    rcases eq_or_ne txHash txHash' with rfl | hne
    · rw [hc, Option.some.injEq] at hc₁
      subst hc₁
      exact ⟨c₂, AList.lookup_insert _, hevolves⟩
    · exact ⟨c, (AList.lookup_insert_ne hne).trans hc, .refl c⟩
  cases he with
  | other hsame => exact ⟨c, by rw [hsame.candidates, hc], .refl c⟩
  | confirm nHeightNew hc₁ => exact hset hc₁ ⟨fun _ => Iff.rfl, fun _ _ => id, id⟩
  | @create txLockRequest fRequireUnspent hvalid hnone =>
    -- the new candidate has a hash of its own
    have hne : txHash ≠ txLockRequest.hash := by
      rintro rfl
      exact absurd (hc.symm.trans hnone) (by simp)
    exact ⟨c, (AList.lookup_insert_ne hne).trans hc, .refl c⟩
  | counted hvalid hc₁ hadd hconflict => exact hset hc₁ (CTxLockCandidate.evolves_addVote hadd)
  | refused hvalid hc₁ hadd => exact ⟨c, hc, .refl c⟩
  | locked hc₁ hready hconflict =>
    exact ⟨c, by rw [lockTransactionInputs_candidates, hc], .refl c⟩

theorem Effects.evolves (he : Effects env m m')
    (hc : m.mapTxLockCandidates.lookup txHash = some c) :
    ∃ c', m'.mapTxLockCandidates.lookup txHash = some c' ∧ c.Evolves c' := by
  apply he.invariant (I := fun m' => ∃ c', m'.mapTxLockCandidates.lookup txHash = some c' ∧
    c.Evolves c') _ ⟨c, hc, .refl c⟩
  rintro m₁ m₂ he ⟨c₁, hc₁, h₁⟩
  obtain ⟨c₂, hc₂, h₂⟩ := he.evolves hc₁
  exact ⟨c₂, hc₂, h₁.trans h₂⟩

/-! ### What the changes do to votes -/

/-- The candidate with this hash has a vote of the masternode for the outpoint. -/
def HasVoted (m : CInstantSend) (txHash : UInt256) (o mn : COutPoint) : Prop :=
  ∃ c, m.mapTxLockCandidates.lookup txHash = some c ∧ c.hasMasternodeVoted o mn = true

variable {o : COutPoint}

theorem SameLocks.hasVoted (h : SameLocks m m') {mn : COutPoint} :
    m'.HasVoted txHash o mn ↔ m.HasVoted txHash o mn := by
  rw [HasVoted, h.candidates, HasVoted]

theorem hasVoted_setCandidate {txHash' : UInt256} {mn : COutPoint} :
    (m.setCandidate txHash c).HasVoted txHash' o mn ↔
      (txHash' = txHash ∧ c.hasMasternodeVoted o mn = true) ∨
        (txHash' ≠ txHash ∧ m.HasVoted txHash' o mn) := by
  show (∃ c', (m.mapTxLockCandidates.insert txHash c).lookup txHash' = some c' ∧ _) ↔ _
  rcases eq_or_ne txHash' txHash with rfl | hne
  · rw [AList.lookup_insert]
    simp
  · rw [AList.lookup_insert_ne hne]
    simp [hne, HasVoted]

theorem mem_votedHashes_addVotedOutpoint {txHash' : UInt256} {o' : COutPoint} :
    txHash' ∈ (m.addVotedOutpoint o txHash).votedHashes o' ↔
      (o' = o ∧ txHash' = txHash) ∨ txHash' ∈ m.votedHashes o' := by
  show txHash' ∈ ((m.mapVotedOutpoints.insert o (insert txHash (m.votedHashes o))).lookup o').getD
    ∅ ↔ _
  rcases eq_or_ne o' o with rfl | ho
  · rw [AList.lookup_insert]
    simp
  · rw [AList.lookup_insert_ne ho]
    simp [ho, votedHashes]

theorem Effect.votedHashes_subset (h : Effect env m m') (o : COutPoint) :
    m.votedHashes o ⊆ m'.votedHashes o := by
  intro txHash hmem
  cases h with
  | other hsame =>
    rw [votedHashes, hsame.voted]
    exact hmem
  | confirm nHeightNew hc => exact hmem
  | create hvalid hc => exact hmem
  | counted hvalid hc hadd hconflict =>
    exact mem_votedHashes_addVotedOutpoint.mpr (.inr hmem)
  | refused hvalid hc hadd => exact mem_votedHashes_addVotedOutpoint.mpr (.inr hmem)
  | locked hc hready hconflict =>
    rw [votedHashes, lockTransactionInputs_voted]
    exact hmem

theorem Effect.hasVoted (h : Effect env m m') :
    (∀ txHash o mn, m'.HasVoted txHash o mn → m.HasVoted txHash o mn) ∨
      ∃ vote : CTxLockVote, vote.isValid env = true ∧ NoConflict env m vote ∧
        vote.txHash ∈ m'.votedHashes vote.outpoint ∧
        ∀ txHash o mn, m'.HasVoted txHash o mn → m.HasVoted txHash o mn ∨
          txHash = vote.txHash ∧ o = vote.outpoint ∧ mn = vote.outpointMasternode := by
  cases h with
  | other hsame => exact .inl fun txHash o mn => hsame.hasVoted.mp
  | @confirm txHash c nHeightNew hc =>
    refine .inl fun txHash' o mn hv => ?_
    rcases hasVoted_setCandidate.mp hv with ⟨rfl, hvoted⟩ | ⟨-, hv⟩
    · exact ⟨c, hc, hvoted⟩
    · exact hv
  | create hvalid hc =>
    refine .inl fun txHash' o mn hv => ?_
    rcases hasVoted_setCandidate.mp hv with ⟨-, hv⟩ | ⟨-, hv⟩
    · rw [CTxLockCandidate.hasMasternodeVoted_of] at hv
      exact absurd hv (by decide)
    · exact hv
  | @counted vote c c' hvalid hc hadd hconflict =>
    refine .inr ⟨vote, hvalid, hconflict,
      mem_votedHashes_addVotedOutpoint.mpr (.inl ⟨rfl, rfl⟩), fun txHash' o mn hv => ?_⟩
    rcases hasVoted_setCandidate.mp hv with ⟨rfl, hvoted⟩ | ⟨-, hv⟩
    · rcases (CTxLockCandidate.hasMasternodeVoted_addVote hadd).mp hvoted with ⟨ho, hmn⟩ | hold
      · exact .inr ⟨rfl, ho, hmn⟩
      · exact .inl ⟨c, hc, hold⟩
    · exact .inl hv
  | refused hvalid hc hadd => exact .inl fun _ _ _ hv => hv
  | @locked txHash c hc hready hconflict =>
    refine .inl fun txHash' o mn hv => ?_
    rw [HasVoted, lockTransactionInputs_candidates] at hv
    exact hv

/-! ### Expiry -/

/-- `CheckAndRemove` removes this candidate. -/
def Expires (env : InstantEnv) (m : CInstantSend) (txHash : UInt256) (c : CTxLockCandidate) :
    Prop :=
  m.mapTxLockCandidates.lookup txHash = some c ∧
    ∃ nHeight, m.pCurrentBlockIndex = some nHeight ∧ c.isExpired env nHeight = true

/-- A candidate that `CheckAndRemove` removes has this outpoint. -/
def Frees (env : InstantEnv) (m : CInstantSend) (o : COutPoint) : Prop :=
  ∃ txHash c, Expires env m txHash c ∧ c.Owns o

theorem foldl_removeCandidate :
    ∀ (l : List (Sigma fun _ : UInt256 => CTxLockCandidate)) (m : CInstantSend),
      (l.foldl removeCandidate m).mapTxLockCandidates =
          (l.map Sigma.fst).foldl (fun m k => m.erase k) m.mapTxLockCandidates ∧
        (l.foldl removeCandidate m).mapVotedOutpoints =
          (l.flatMap fun e => e.2.mapOutPointLocks.keys).foldl (fun m k => m.erase k)
            m.mapVotedOutpoints ∧
        (l.foldl removeCandidate m).mapLockedOutpoints =
          (l.flatMap fun e => e.2.mapOutPointLocks.keys).foldl (fun m k => m.erase k)
            m.mapLockedOutpoints
  | [], m => ⟨rfl, rfl, rfl⟩
  | e :: l, m => by
    obtain ⟨hc, hv, hl⟩ := foldl_removeCandidate l (m.removeCandidate e)
    rw [List.foldl_cons, List.flatMap_cons, List.foldl_append, List.foldl_append]
    exact ⟨hc, hv, hl⟩

theorem mem_expiredCandidates {nHeight : ℤ} (hn : m.pCurrentBlockIndex = some nHeight)
    {e : Sigma fun _ : UInt256 => CTxLockCandidate} :
    e ∈ m.expiredCandidates env nHeight ↔ Expires env m e.1 e.2 := by
  rw [expiredCandidates, List.mem_filter, ← AList.mem_lookup_iff, Option.mem_def, Expires, hn]
  simp

theorem mem_outpoints_expiredCandidates {nHeight : ℤ} (hn : m.pCurrentBlockIndex = some nHeight) :
    o ∈ (m.expiredCandidates env nHeight).flatMap (fun e => e.2.mapOutPointLocks.keys) ↔
      Frees env m o := by
  rw [List.mem_flatMap]
  constructor
  · rintro ⟨e, he, ho⟩
    exact ⟨e.1, e.2, (mem_expiredCandidates hn).mp he, ho⟩
  · rintro ⟨txHash, c, he, ho⟩
    exact ⟨⟨txHash, c⟩, (mem_expiredCandidates hn).mpr he, ho⟩

theorem not_frees_of_none (hn : m.pCurrentBlockIndex = none) (o : COutPoint) : ¬ Frees env m o := by
  rintro ⟨txHash, c, ⟨-, nHeight, hn', -⟩, -⟩
  rw [hn] at hn'
  exact absurd hn' (by simp)

theorem lookup_candidates_checkAndRemove :
    (m.checkAndRemove env).mapTxLockCandidates.lookup txHash = some c ↔
      m.mapTxLockCandidates.lookup txHash = some c ∧ ¬ Expires env m txHash c := by
  unfold checkAndRemove
  rcases hn : m.pCurrentBlockIndex with - | nHeight
  · refine ⟨fun h => ⟨h, ?_⟩, And.left⟩
    rintro ⟨-, nHeight, hn', -⟩
    rw [hn] at hn'
    exact absurd hn' (by simp)
  · show ((m.expiredCandidates env nHeight).foldl removeCandidate m).mapTxLockCandidates.lookup
      txHash = some c ↔ _
    rw [(foldl_removeCandidate _ m).1, MapMerge.lookup_foldl_erase]
    constructor
    · intro h
      split_ifs at h with hmem
      refine ⟨h, fun he => hmem ?_⟩
      exact List.mem_map.mpr ⟨⟨txHash, c⟩, (mem_expiredCandidates hn).mpr he, rfl⟩
    · rintro ⟨hc, hstay⟩
      rw [if_neg, hc]
      intro hmem
      obtain ⟨⟨_, c'⟩, he, rfl⟩ := List.mem_map.mp hmem
      have he' := (mem_expiredCandidates hn).mp he
      have hcc : c' = c := Option.some.inj (he'.1.symm.trans hc)
      exact hstay (hcc ▸ he')

theorem EachCandidate.checkAndRemove {P : UInt256 → CTxLockCandidate → Prop}
    (h : EachCandidate P m) : EachCandidate P (m.checkAndRemove env) :=
  fun txHash c hc => h txHash c (lookup_candidates_checkAndRemove.mp hc).1

open Classical in
theorem lookup_outpoints_checkAndRemove (o : COutPoint) :
    (m.checkAndRemove env).mapVotedOutpoints.lookup o =
        (if Frees env m o then none else m.mapVotedOutpoints.lookup o) ∧
      (m.checkAndRemove env).mapLockedOutpoints.lookup o =
        (if Frees env m o then none else m.mapLockedOutpoints.lookup o) := by
  unfold checkAndRemove
  rcases hn : m.pCurrentBlockIndex with - | nHeight
  · rw [if_neg (not_frees_of_none hn o), if_neg (not_frees_of_none hn o)]
    exact ⟨rfl, rfl⟩
  · show ((m.expiredCandidates env nHeight).foldl removeCandidate m).mapVotedOutpoints.lookup o = _ ∧
      ((m.expiredCandidates env nHeight).foldl removeCandidate m).mapLockedOutpoints.lookup o = _
    obtain ⟨-, hv, hl⟩ := foldl_removeCandidate (m.expiredCandidates env nHeight) m
    rw [hv, hl, MapMerge.lookup_foldl_erase, MapMerge.lookup_foldl_erase]
    simp only [mem_outpoints_expiredCandidates hn, and_self]

theorem mem_votedHashes_checkAndRemove :
    txHash ∈ (m.checkAndRemove env).votedHashes o ↔
      ¬ Frees env m o ∧ txHash ∈ m.votedHashes o := by
  rw [votedHashes, (lookup_outpoints_checkAndRemove o).1]
  split_ifs with hf
  · simp [hf]
  · simp [hf, votedHashes]

theorem lookup_locked_checkAndRemove :
    (m.checkAndRemove env).mapLockedOutpoints.lookup o = some txHash ↔
      ¬ Frees env m o ∧ m.mapLockedOutpoints.lookup o = some txHash := by
  rw [(lookup_outpoints_checkAndRemove o).2]
  split_ifs with hf
  · simp [hf]
  · simp [hf]

theorem hasVoted_checkAndRemove {mn : COutPoint} (h : (m.checkAndRemove env).HasVoted txHash o mn) :
    ∃ c, m.mapTxLockCandidates.lookup txHash = some c ∧ ¬ Expires env m txHash c ∧
      c.hasMasternodeVoted o mn = true := by
  obtain ⟨c, hc, hv⟩ := h
  obtain ⟨hc, hstay⟩ := lookup_candidates_checkAndRemove.mp hc
  exact ⟨c, hc, hstay, hv⟩

end CInstantSend

end Stonecoin
