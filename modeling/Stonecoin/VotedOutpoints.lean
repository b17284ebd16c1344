/-
Which hashes `mapVotedOutpoints` leads to.

`ProcessTxLockVote` records the transaction under the outpoint of a vote before the candidate
can refuse it, and `CheckAndRemove` erases the records of the candidate's own outpoints only.
So a vote for an outpoint that is no input of the transaction leaves a hash behind, and the
next vote on that outpoint looks up a candidate that is gone.

  * `no_dangling_iff`: no lookup ever yields `end()` exactly if every expiry takes all records
                        of the expired candidates with it.
-/
import Stonecoin.InstantSendSteps
import Stonecoin.Runs

namespace Stonecoin

/-- The same answers, but for what a lookup of `end()` yields. -/
def InstantEnv.withAtEnd (env : InstantEnv) (b : Bool) : InstantEnv :=
  { env with hasVotedAtEnd := b }

namespace CInstantSend

variable {hash : UInt256 → COutPoint → COutPoint → UInt256} {env : InstantEnv}
  {m m' : CInstantSend}

/-- Every hash recorded for an outpoint has a candidate. -/
def NoDangling (m : CInstantSend) : Prop :=
  ∀ o, ∀ txHash ∈ m.votedHashes o, ∃ c, m.mapTxLockCandidates.lookup txHash = some c

theorem noDangling_init : NoDangling init := by
  intro o txHash hmem
  simp [votedHashes, init] at hmem

/-! ### One change -/

theorem Effect.recorded (he : Effect env m m') {o : COutPoint} {txHash : UInt256}
    (hmem : txHash ∈ m'.votedHashes o) : txHash ∈ m.votedHashes o ∨
      ∃ vote : CTxLockVote, vote.isValid env = true ∧ vote.txHash = txHash ∧ vote.outpoint = o ∧
        ∃ c, m.mapTxLockCandidates.lookup txHash = some c := by
  cases he with
  | other hsame =>
    rw [votedHashes, hsame.voted] at hmem
    exact .inl hmem
  | confirm nHeightNew hc => exact .inl hmem
  | create hvalid hc => exact .inl hmem
  | @counted vote c c' hvalid hc hadd hconflict =>
    rcases mem_votedHashes_addVotedOutpoint.mp hmem with ⟨rfl, rfl⟩ | hmem
    · exact .inr ⟨vote, hvalid, rfl, rfl, c, hc⟩
    · exact .inl hmem
  | @refused vote c hvalid hc hadd =>
    rcases mem_votedHashes_addVotedOutpoint.mp hmem with ⟨rfl, rfl⟩ | hmem
    · exact .inr ⟨vote, hvalid, rfl, rfl, c, hc⟩
    · exact .inl hmem
  | locked hc hready hconflict =>
    rw [votedHashes, lockTransactionInputs_voted] at hmem
    exact .inl hmem

theorem NoDangling.effect (he : Effect env m m') (h : NoDangling m) : NoDangling m' := by
  intro o txHash hmem
  have hknown : ∃ c, m.mapTxLockCandidates.lookup txHash = some c := by
    rcases he.recorded hmem with hmem | ⟨-, -, -, -, hc⟩
    · exact h o txHash hmem
    · exact hc
  obtain ⟨c, hc⟩ := hknown
  obtain ⟨c', hc', -⟩ := he.evolves hc
  exact ⟨c', hc'⟩

theorem NoDangling.effects (he : Effects env m m') (h : NoDangling m) : NoDangling m' :=
  he.invariant (fun _ _ he h => h.effect he) h

/-! ### Expiry -/

/-- The outpoints that an expiring candidate is recorded for are all freed. -/
def ExpiryDropsRecords (env : InstantEnv) (m : CInstantSend) : Prop :=
  ∀ txHash c, Expires env m txHash c → ∀ o, txHash ∈ m.votedHashes o → Frees env m o

theorem noDangling_checkAndRemove_iff (h : NoDangling m) :
    NoDangling (m.checkAndRemove env) ↔ ExpiryDropsRecords env m := by
  constructor
  · intro hno txHash c hexpires o hmem
    rcases Classical.em (Frees env m o) with hfree | hfree
    · exact hfree
    · obtain ⟨c', hc'⟩ := hno o txHash (mem_votedHashes_checkAndRemove.mpr ⟨hfree, hmem⟩)
      obtain ⟨hc', hstay⟩ := lookup_candidates_checkAndRemove.mp hc'
      have hcc : c = c' := Option.some.inj (hexpires.1.symm.trans hc')
      exact absurd (hcc ▸ hexpires) hstay
  · intro hdrops o txHash hmem
    obtain ⟨hfree, hmem⟩ := mem_votedHashes_checkAndRemove.mp hmem
    obtain ⟨c, hc⟩ := h o txHash hmem
    exact ⟨c, lookup_candidates_checkAndRemove.mpr
      ⟨hc, fun hexpires => hfree (hdrops txHash c hexpires o hmem)⟩⟩

/-! ### What `end()` yields -/

section AtEnd

variable (b : Bool)

theorem hasVotedIn_withAtEnd (h : NoDangling m) {o mn : COutPoint} {txHash : UInt256}
    (hmem : txHash ∈ m.votedHashes o) :
    m.hasVotedIn (env.withAtEnd b) o mn txHash = m.hasVotedIn env o mn txHash := by
  obtain ⟨c, hc⟩ := h o txHash hmem
  rw [hasVotedIn, hc, hasVotedIn, hc]

theorem voteOutpoint_withAtEnd (h : NoDangling m) (txHash : UInt256) (o : COutPoint) :
    m.voteOutpoint hash (env.withAtEnd b) txHash o = m.voteOutpoint hash env txHash o := by
  have hfilter : ((m.votedHashes o).filter fun txHash =>
        m.hasVotedIn (env.withAtEnd b) o env.activeMasternode txHash = true) =
      (m.votedHashes o).filter fun txHash =>
        m.hasVotedIn env o env.activeMasternode txHash = true :=
    Finset.filter_congr fun txHash hmem => by rw [hasVotedIn_withAtEnd b h hmem]
  unfold voteOutpoint
  show (if env.getUTXOHeight o = -1 then none else _) = _
  rw [← hfilter]
  rfl

theorem voteLoop_withAtEnd (txHash : UInt256) :
    ∀ (outpoints : List COutPoint) (m : CInstantSend), NoDangling m →
      m.voteLoop hash (env.withAtEnd b) txHash outpoints = m.voteLoop hash env txHash outpoints
  | [], m, _ => rfl
  | o :: outpoints, m, h => by
    unfold voteLoop
    rw [voteOutpoint_withAtEnd b h]
    rcases hv : m.voteOutpoint hash env txHash o with - | m'
    · rfl
    · exact voteLoop_withAtEnd txHash outpoints m' (h.effects (effects_voteOutpoint hv))

theorem vote_withAtEnd (h : NoDangling m) (txHash : UInt256) :
    m.vote hash (env.withAtEnd b) txHash = m.vote hash env txHash := by
  unfold vote
  show (if !env.fMasterNode then m else _) = _
  cases m.mapTxLockCandidates.lookup txHash with
  | none => rfl
  | some c =>
    dsimp only
    rw [voteLoop_withAtEnd b txHash _ m h]

theorem processCandidateVote_withAtEnd (h : NoDangling m) (vote : CTxLockVote) :
    m.processCandidateVote hash (env.withAtEnd b) vote = m.processCandidateVote hash env vote := by
  have hfilter : ((m.votedHashes vote.outpoint).filter fun txHash => txHash ≠ vote.txHash ∧
        m.hasVotedIn (env.withAtEnd b) vote.outpoint vote.outpointMasternode txHash = true) =
      (m.votedHashes vote.outpoint).filter fun txHash => txHash ≠ vote.txHash ∧
        m.hasVotedIn env vote.outpoint vote.outpointMasternode txHash = true :=
    Finset.filter_congr fun txHash hmem => by rw [hasVotedIn_withAtEnd b h hmem]
  unfold processCandidateVote
  rw [hfilter]
  rfl

theorem createTxLockCandidate_withAtEnd (txLockRequest : CTxLockRequest) :
    m.createTxLockCandidate (env.withAtEnd b) txLockRequest =
      m.createTxLockCandidate env txLockRequest := by
  have hinputs : ∀ (fRequireUnspent : Bool) (vin : List CTxIn),
      CTxLockRequest.inputValues (env.withAtEnd b) fRequireUnspent vin =
        CTxLockRequest.inputValues env fRequireUnspent vin := by
    intro fRequireUnspent vin
    induction vin with
    | nil => rfl
    | cons txin vin ih =>
      unfold CTxLockRequest.inputValues
      rw [ih]
      rfl
  unfold createTxLockCandidate CTxLockRequest.isValid
  rw [hinputs]
  rfl

variable {reprocess reprocess' : CInstantSend → CTxLockRequest → CInstantSend}
  (hre : ∀ m txLockRequest, NoDangling m → reprocess' m txLockRequest = reprocess m txLockRequest)
  (heff : ∀ m txLockRequest, Effects env m (reprocess m txLockRequest))
include hre

theorem processTxLockVoteWith_withAtEnd (h : NoDangling m) (vote : CTxLockVote) :
    m.processTxLockVoteWith hash (env.withAtEnd b) reprocess' vote =
      m.processTxLockVoteWith hash env reprocess vote := by
  unfold processTxLockVoteWith
  show (if !vote.isValid env then (false, m) else _) = _
  cases m.mapTxLockCandidates.lookup vote.txHash with
  | some c =>
    dsimp only
    rw [processCandidateVote_withAtEnd b h]
  | none =>
    have hstore : NoDangling (m.storeOrphan hash vote) := h
    dsimp only
    unfold processOrphanVote
    dsimp only
    cases (m.storeOrphan hash vote).findLockRequest vote.txHash with
    | none => rfl
    | some txLockRequest =>
      dsimp only
      rw [hre _ _ hstore]
      rfl

include heff

theorem processOrphanTxLockVotesWith_withAtEnd (h : NoDangling m) :
    m.processOrphanTxLockVotesWith hash (env.withAtEnd b) reprocess' =
      m.processOrphanTxLockVotesWith hash env reprocess := by
  have hloop : ∀ (l : List (Sigma fun _ : UInt256 => CTxLockVote)) (m : CInstantSend),
      NoDangling m → l.foldl (replayOrphan hash (env.withAtEnd b) reprocess') m =
        l.foldl (replayOrphan hash env reprocess) m := by
    intro l
    induction l with
    | nil => exact fun _ _ => rfl
    | cons e l ih =>
      intro m h
      have he : m.replayOrphan hash (env.withAtEnd b) reprocess' e =
          m.replayOrphan hash env reprocess e := by
        unfold replayOrphan
        rw [processTxLockVoteWith_withAtEnd b hre h]
      rw [List.foldl_cons, List.foldl_cons, he]
      exact ih _ (h.effects (effects_replayOrphan heff e))
  exact hloop _ m h

theorem processTxLockRequestWith_withAtEnd (h : NoDangling m) (txLockRequest : CTxLockRequest) :
    m.processTxLockRequestWith hash (env.withAtEnd b) reprocess' txLockRequest =
      m.processTxLockRequestWith hash env reprocess txLockRequest := by
  unfold processTxLockRequestWith
  rw [createTxLockCandidate_withAtEnd]
  have heffect : Effects env m (m.createTxLockCandidate env txLockRequest).2 :=
    effects_createTxLockCandidate txLockRequest
  rcases hr : m.createTxLockCandidate env txLockRequest with ⟨ok, m'⟩
  rw [hr] at heffect
  cases ok with
  | false => rfl
  | true =>
    have hm' : NoDangling m' := h.effects heffect
    dsimp only
    rw [vote_withAtEnd b hm', processOrphanTxLockVotesWith_withAtEnd b hre heff
      (hm'.effects (effects_vote txLockRequest.hash))]
    rfl

end AtEnd

theorem reprocess_withAtEnd (b : Bool) : ∀ (depth : ℕ) (m : CInstantSend)
    (txLockRequest : CTxLockRequest), NoDangling m →
      reprocess hash (env.withAtEnd b) depth m txLockRequest =
        reprocess hash env depth m txLockRequest
  | 0, _, _, _ => rfl
  | depth + 1, m, txLockRequest, h => by
    show (m.processTxLockRequestWith hash (env.withAtEnd b) _ txLockRequest).2 = _
    rw [processTxLockRequestWith_withAtEnd b (reprocess_withAtEnd b depth)
      (effects_reprocess depth) h]
    rfl

theorem processTxLockVote_withAtEnd (b : Bool) (h : NoDangling m) (vote : CTxLockVote) :
    m.processTxLockVote hash (env.withAtEnd b) vote = m.processTxLockVote hash env vote :=
  processTxLockVoteWith_withAtEnd b (reprocess_withAtEnd b 1) h vote

theorem step_withAtEnd (b : Bool) (h : NoDangling m) (event : InstantEvent) :
    m.step hash (env.withAtEnd b, event) = m.step hash (env, event) := by
  cases event with
  | message vote =>
    show m.processMessage hash (env.withAtEnd b) vote = m.processMessage hash env vote
    unfold processMessage
    dsimp only
    rw [processTxLockVote_withAtEnd b (show NoDangling (m.storeVote hash _) from h)]
    rfl
  | processTxLockVote vote =>
    show (m.processTxLockVote hash (env.withAtEnd b) vote).2 = _
    rw [processTxLockVote_withAtEnd b h]
    rfl
  | processTxLockRequest txLockRequest =>
    show (m.processTxLockRequestWith hash (env.withAtEnd b) _ txLockRequest).2 = _
    rw [processTxLockRequestWith_withAtEnd b (reprocess_withAtEnd b 0) (effects_reprocess 0) h]
    rfl
  | vote txHash => exact vote_withAtEnd b h txHash
  | acceptLockRequest txLockRequest => rfl
  | rejectLockRequest txLockRequest => rfl
  | chain event => rfl
  | checkAndRemove => rfl

/-! ### Runs -/

theorem noDangling_step {event : InstantEvent} (h : NoDangling m) :
    NoDangling (m.step hash (env, event)) ↔
      (event = .checkAndRemove → ExpiryDropsRecords env m) := by
  rcases eq_or_ne event .checkAndRemove with rfl | hne
  · have hexpiry : NoDangling (m.checkAndRemove env) ↔ ExpiryDropsRecords env m :=
      noDangling_checkAndRemove_iff h
    exact hexpiry.trans ⟨fun hdrops _ => hdrops, fun hdrops => hdrops rfl⟩
  · exact ⟨fun _ he => absurd he hne, fun _ => h.effects (effects_step hne)⟩

/-- The event leaves no dangling hash, and does not look at what `end()` yields. -/
def LooksUpCandidates (hash : UInt256 → COutPoint → COutPoint → UInt256) (m : CInstantSend)
    (e : InstantEnv × InstantEvent) : Prop :=
  NoDangling (m.step hash e) ∧ ∀ b, m.step hash (e.1.withAtEnd b, e.2) = m.step hash e

/-- An expiry takes all records of the expired candidates with it. -/
def DropsRecords (m : CInstantSend) (e : InstantEnv × InstantEvent) : Prop :=
  e.2 = .checkAndRemove → ExpiryDropsRecords e.1 m

/-- **No dangling lookup.**  Along a run no hash dangles and no lookup yields `end()` exactly if
every expiry takes all records of the expired candidates with it. -/
theorem no_dangling_iff (hash : UInt256 → COutPoint → COutPoint → UInt256)
    (es : List (InstantEnv × InstantEvent)) :
    Runs.Admits (LooksUpCandidates hash) (step hash) init es ↔
      Runs.Admits DropsRecords (step hash) init es := by
  apply Runs.admits_iff (I := NoDangling) _ (fun m e _ he => he.1) noDangling_init
  rintro m ⟨env, event⟩ h
  constructor
  · exact fun hlooks => (noDangling_step h).mp hlooks.1
  · exact fun hdrops => ⟨(noDangling_step h).mpr hdrops, fun b => step_withAtEnd b h event⟩

/-! ### Votes that name inputs -/

variable {inputs : UInt256 → List COutPoint}

/-- A vote for a transaction names an output that another transaction spends; the first
transaction is mined and expires. -/
def strayVote : List (InstantEnv × InstantEvent) :=
  eventsAt 0 [.processTxLockRequest (sampleRequest 11 [⟨1, 0⟩]),
    .processTxLockRequest (sampleRequest 12 [⟨2, 0⟩]),
    .message ⟨11, ⟨2, 0⟩, ⟨7, 0⟩, [], -1, 0⟩,
    .chain (.syncTransaction (sampleRequest 11 [⟨1, 0⟩]) 10), .chain (.updatedBlockTip 40),
    .checkAndRemove]

/-- The next vote on the output meets the hash, and what becomes of it is undefined. -/
theorem dangling_hash : ¬ NoDangling (strayVote.foldl (step sampleHash) init) ∧
    (strayVote.foldl (step sampleHash) init).step sampleHash
        ((sampleEnv 0).withAtEnd true, .message ⟨12, ⟨2, 0⟩, ⟨7, 1⟩, [], -1, 0⟩) ≠
      (strayVote.foldl (step sampleHash) init).step sampleHash
        ((sampleEnv 0).withAtEnd false, .message ⟨12, ⟨2, 0⟩, ⟨7, 1⟩, [], -1, 0⟩) := by
  constructor
  · intro hno
    obtain ⟨c, hc⟩ := hno ⟨2, 0⟩ 11 (by decide +kernel)
    have hnone : ((strayVote.foldl (step sampleHash) init).mapTxLockCandidates.lookup 11).isNone =
        true := by
      decide +kernel
    exact absurd (hc.symm.trans (Option.isNone_iff_eq_none.mp hnone)) (by simp)
  · intro heq
    have hcounts := congrArg (fun m : CInstantSend => (m.mapTxLockCandidates.lookup 12).any
      (·.hasMasternodeVoted ⟨2, 0⟩ ⟨7, 1⟩)) heq
    exact absurd hcounts (by decide +kernel)

end CInstantSend

end Stonecoin
