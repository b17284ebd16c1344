/-
InstantSend votes that arrive before their request: what is left of them.

The replay for one request takes away the waiting votes for other transactions whose requests
have not come, unless the masternode of the vote is over its rate; sent again, such a vote is
known and ignored.

  * `lock_votes_held`: the votes in a candidate are those received, whatever the order of
                         arrival, if no replay meets such a vote.
-/
import Stonecoin.LockedOutpoints
import Stonecoin.OrphanReplay

namespace Stonecoin

namespace CInstantSend

variable {hash : UInt256 → COutPoint → COutPoint → UInt256} {env : InstantEnv}
  {m m' : CInstantSend} {own : COutPoint → Prop} {good : CTxLockVote → Prop} {R : Ballots}

/-! ### Between events -/

/-- Between events no waiting vote has a candidate that should have it. -/
structure AtRest (hash : UInt256 → COutPoint → COutPoint → UInt256) (good : CTxLockVote → Prop)
    (own : COutPoint → Prop) (R : Ballots) (m : CInstantSend) : Prop
    extends Kept hash good own R m where
  settled : ∀ e : Sigma fun _ : UInt256 => CTxLockVote,
    m.mapTxLockVotesOrphan.lookup e.1 = some e.2 → Settled own m e.2

theorem Kept.upkeep (h : Kept hash good own R m) (he : Effects env m m') (hup : Upkeep own m m') :
    Kept hash good own R m' :=
  ⟨h.counts.effects he hup.orphans hup.hasVoted, hup.stored R h.stored, h.noDangling.effects he⟩

theorem AtRest.upkeep (h : AtRest hash good own R m) (he : Effects env m m')
    (hup : Upkeep own m m') : AtRest hash good own R m' := by
  refine ⟨h.toKept.upkeep he hup, fun e hv => ?_⟩
  rw [hup.orphans] at hv
  exact (h.settled e hv).effects he hup.unknown

theorem AtRest.rateLimit (h : AtRest hash good own R m) (vote : CTxLockVote) :
    AtRest hash good own R (m.rateLimit env vote).2 := by
  unfold CInstantSend.rateLimit
  split_ifs
  · exact h
  · exact ⟨⟨⟨h.counts.received, h.counts.orphan, h.counts.sound, h.counts.complete⟩,
      ⟨h.stored.orphan, h.stored.vote⟩, h.noDangling⟩, h.settled⟩

theorem atRest_init : AtRest hash good own (fun _ _ _ => False) init where
  counts := ⟨fun _ _ _ => False.elim, fun _ _ hv => absurd hv (by simp [init]),
    fun _ _ _ ⟨_, hc, _⟩ => absurd hc (by simp [init]), fun _ _ _ => False.elim⟩
  stored := ⟨fun _ _ hv => absurd hv (by simp [init]), fun _ _ hw => absurd hw (by simp [init])⟩
  noDangling := noDangling_init
  settled e hv := absurd hv (by simp [init])

/-! ### Requests -/

def Replays (env : InstantEnv) (m : CInstantSend) (txLockRequest : CTxLockRequest) : Prop :=
  (∀ txin ∈ txLockRequest.vin, m.mapLockedOutpoints.lookup txin.prevout = none) ∧
    txLockRequest.isValid env (!m.isEnoughOrphanVotesForTx txLockRequest) = true

/-- If there is a replay, the masternodes of all waiting votes for other transactions without a
candidate are over their rate. -/
def ReplaySpares (env : InstantEnv) (m : CInstantSend) (txLockRequest : CTxLockRequest) : Prop :=
  Replays env m txLockRequest → ∀ k v, m.mapTxLockVotesOrphan.lookup k = some v →
    v.txHash ≠ txLockRequest.hash → m.mapTxLockCandidates.lookup v.txHash = none →
      m.isSpamming env v.outpointMasternode = true

theorem Kept.create (h : Kept hash good own R m) {txLockRequest : CTxLockRequest}
    {fRequireUnspent : Bool} (hvalid : txLockRequest.isValid env fRequireUnspent = true)
    (hnone : m.mapTxLockCandidates.lookup txLockRequest.hash = none) :
    Kept hash good own R (m.setCandidate txLockRequest.hash (.of txLockRequest)) := by
  have he := (Effect.create hvalid hnone).effects
  refine ⟨h.counts.effects he rfl fun txHash o mn hv => ?_, ⟨h.stored.orphan, h.stored.vote⟩,
    h.noDangling.effects he⟩
  rcases hasVoted_setCandidate.mp hv with ⟨-, hv'⟩ | ⟨-, hv'⟩
  · rw [CTxLockCandidate.hasMasternodeVoted_of] at hv'
    exact absurd hv' (by decide)
  · exact .inl hv'

section Steps

variable (hagree : Agreeing good) (hvalid : ∀ v, good v → v.isValid env = true)
  (hown : env.fMasterNode = true → own env.activeMasternode)
include hagree hvalid hown

theorem Kept.replay (reprocess : CInstantSend → CTxLockRequest → CInstantSend)
    (h : Kept hash good own R m) (txHash : UInt256)
    (hspares : ∀ k v, m.mapTxLockVotesOrphan.lookup k = some v →
      m.mapTxLockCandidates.lookup v.txHash = none →
        m.isSpamming env v.outpointMasternode = true) :
    AtRest hash good own R (((m.vote hash env txHash).processOrphanTxLockVotesWith hash env
      reprocess).tryToFinalizeLockCandidate hash env txHash) := by
  have he : Effects env m (m.vote hash env txHash) := effects_vote txHash
  have hup : Upkeep own m (m.vote hash env txHash) := upkeep_vote hown txHash
  have hstart : Replaying hash env good own R
      (iterate uint256Lt (m.vote hash env txHash).mapTxLockVotesOrphan)
      (m.vote hash env txHash) := by
    have hiterate : ∀ e ∈ iterate uint256Lt (m.vote hash env txHash).mapTxLockVotesOrphan,
        (m.vote hash env txHash).mapTxLockVotesOrphan.lookup e.1 = some e.2 :=
      fun e he => AList.mem_lookup_iff.mpr ((mem_iterate _ _ _).mp he)
    refine ⟨h.upkeep he hup, hiterate, fun e hv => .inl ?_, fun e hmem hnone => ?_⟩
    · exact (mem_iterate _ _ _).mpr (AList.mem_lookup_iff.mp hv)
    · rw [isSpamming_congr hup.times]
      refine hspares e.1 e.2 (hup.orphans ▸ hiterate e hmem) ?_
      rcases hc : m.mapTxLockCandidates.lookup e.2.txHash with - | c
      · rfl
      · obtain ⟨c', hc', -⟩ := he.evolves hc
        exact absurd (hnone.symm.trans hc') (by simp)
  have hend := hstart.run hagree hvalid reprocess (nodup_iterate _ _)
  have hrest : AtRest hash good own R
      ((m.vote hash env txHash).processOrphanTxLockVotesWith hash env reprocess) :=
    ⟨hend.toKept, fun e hv => (hend.settled e hv).resolve_left (by simp)⟩
  exact hrest.upkeep (effects_tryToFinalizeLockCandidate txHash)
    (upkeep_tryToFinalizeLockCandidate txHash)

theorem AtRest.request (reprocess : CInstantSend → CTxLockRequest → CInstantSend)
    (h : AtRest hash good own R m) {txLockRequest : CTxLockRequest}
    (hspares : ReplaySpares env m txLockRequest) :
    AtRest hash good own R
      (m.processTxLockRequestWith hash env reprocess txLockRequest).2 := by
  unfold processTxLockRequestWith
  split_ifs with hlocked
  · exact h
  have hfree : ∀ txin ∈ txLockRequest.vin, m.mapLockedOutpoints.lookup txin.prevout = none := by
    intro txin htxin
    rw [Bool.not_eq_true, List.any_eq_false] at hlocked
    simpa using hlocked txin htxin
  unfold createTxLockCandidate
  split_ifs with hinvalid hknown
  · exact h
  · have hreplays : Replays env m txLockRequest := ⟨hfree, by simpa using hinvalid⟩
    refine h.toKept.replay hagree hvalid hown reprocess txLockRequest.hash fun k v hv hnone => ?_
    refine hspares hreplays k v hv ?_ hnone
    rintro he
    rw [← he, hnone] at hknown
    exact absurd hknown (by decide)
  · have hreplays : Replays env m txLockRequest := ⟨hfree, by simpa using hinvalid⟩
    have hnew : m.mapTxLockCandidates.lookup txLockRequest.hash = none := by simpa using hknown
    have hkept := h.toKept.create hreplays.2 hnew
    refine hkept.replay hagree hvalid hown reprocess txLockRequest.hash fun k v hv hnone => ?_
    change (m.mapTxLockCandidates.insert txLockRequest.hash _).lookup v.txHash = none at hnone
    have hne : v.txHash ≠ txLockRequest.hash := by
      intro he
      rw [he, AList.lookup_insert] at hnone
      exact absurd hnone (by simp)
    rw [AList.lookup_insert_ne hne] at hnone
    exact hspares hreplays k v hv hne hnone

end Steps

/-! ### Messages -/

theorem AtRest.known (h : AtRest hash good own R m) {v w : CTxLockVote} (hgood : good v)
    (hw : m.mapTxLockVotes.lookup (v.getHash hash) = some w)
    (hnames : w.Names v.txHash v.outpoint v.outpointMasternode) :
    AtRest hash good own (R.add v) m := by
  refine ⟨⟨h.counts.add hgood fun hown => ?_, h.stored.add v, h.noDangling⟩, h.settled⟩
  obtain ⟨htx, ho, hmn⟩ := hnames
  have hstored := h.stored.vote _ w hw
  rw [htx, ho, hmn] at hstored
  exact h.counts.complete _ _ _ (hstored.resolve_right hown) hown

theorem stored_storeVote (h : AtRest hash good own R m) (v : CTxLockVote) :
    Stored own (R.add v) (m.storeVote hash v) :=
  (h.stored.add v).storeVote (.inl (.inr ⟨rfl, rfl, rfl⟩))

theorem AtRest.park (h : AtRest hash good own R m) {v : CTxLockVote} (hgood : good v)
    (hnew : m.mapTxLockVotes.lookup (v.getHash hash) = none)
    (hc : m.mapTxLockCandidates.lookup v.txHash = none) :
    m.mapTxLockVotesOrphan.lookup (v.getHash hash) = none ∧
      AtRest hash good own (R.add v) ((m.storeVote hash v).storeOrphan hash v) := by
  have hnone : m.mapTxLockVotesOrphan.lookup (v.getHash hash) = none := by
    rcases hv : m.mapTxLockVotesOrphan.lookup (v.getHash hash) with - | w
    · rfl
    · obtain ⟨w', hw'⟩ := h.stored.orphan _ w hv
      exact absurd (hnew.symm.trans hw') (by simp)
  have horphan : ∀ k w, ((m.storeVote hash v).storeOrphan hash v).mapTxLockVotesOrphan.lookup k =
      some w → (k = v.getHash hash ∧ w = v) ∨ m.mapTxLockVotesOrphan.lookup k = some w := by
    intro k w hw
    change (m.mapTxLockVotesOrphan.insert _ v).lookup k = some w at hw
    rcases eq_or_ne k (v.getHash hash) with rfl | hne
    · rw [AList.lookup_insert, Option.some.injEq] at hw
      exact .inl ⟨rfl, hw.symm⟩
    · rw [AList.lookup_insert_ne hne] at hw
      exact .inr hw
  refine ⟨hnone, ⟨⟨⟨?_, ?_, ?_, ?_⟩, ?_, h.noDangling⟩, ?_⟩⟩
  · rintro txHash o mn (hr | hnames)
    · exact h.counts.received txHash o mn hr
    · exact ⟨v, hgood, hnames⟩
  · intro k w hw
    rcases horphan k w hw with ⟨rfl, rfl⟩ | hw
    · exact ⟨rfl, hgood, .inr ⟨rfl, rfl, rfl⟩⟩
    · exact (h.counts.orphan k w hw).imp_right fun hr => hr.imp_right .inl
  · exact fun txHash o mn hv => (h.counts.sound txHash o mn hv).imp_left .inl
  · rintro txHash o mn (hr | hnames) hown
    · rcases h.counts.complete txHash o mn hr hown with hcounted | ⟨k, w, hw, hnames⟩
      · exact .inl hcounted
      · refine .inr ⟨k, w, (AList.lookup_insert_ne ?_).trans hw, hnames⟩
        rintro rfl
        exact absurd (hnone.symm.trans hw) (by simp)
    · exact .inr ⟨_, v, AList.lookup_insert _, hnames⟩
  · refine ⟨fun k w hw => ?_, (stored_storeVote h v).vote⟩
    rcases horphan k w hw with ⟨rfl, rfl⟩ | hw
    · refine ⟨w, ?_⟩
      show (insertNew m.mapTxLockVotes (w.getHash hash) w).lookup (w.getHash hash) = some w
      rw [insertNew, hnew]
      exact AList.lookup_insert _
    · exact (stored_storeVote h v).orphan k w hw
  · intro e he
    rcases horphan e.1 e.2 he with ⟨-, hev⟩ | he
    · rw [hev]
      intro _ c hc'
      exact absurd (hc'.symm.trans hc) (by simp)
    · exact h.settled e he

/-- The node takes vote messages. -/
def GatesOpen (env : InstantEnv) : Prop :=
  env.fLiteMode = false ∧ env.isSporkActive = true ∧ env.isMasternodeListSynced = true ∧
    MIN_INSTANTSEND_PROTO_VERSION ≤ env.nVersion

/-- The vote makes its request be processed again, and the replay spares the other votes. -/
def ReprocessSpares (hash : UInt256 → COutPoint → COutPoint → UInt256) (env : InstantEnv)
    (m : CInstantSend) (v : CTxLockVote) : Prop :=
  m.mapTxLockVotes.lookup (v.getHash hash) = none →
    m.mapTxLockCandidates.lookup v.txHash = none →
      ∀ txLockRequest, m.findLockRequest v.txHash = some txLockRequest →
        ((m.storeVote hash v).storeOrphan hash v).isEnoughOrphanVotesForTx txLockRequest = true →
          ReplaySpares env ((m.storeVote hash v).storeOrphan hash v) txLockRequest

section Messages

variable (hagree : Agreeing good) (hvalid : ∀ v, good v → v.isValid env = true)
  (hown : env.fMasterNode = true → own env.activeMasternode)
include hagree hvalid hown

theorem AtRest.newVote (h : AtRest hash good own R m) {v : CTxLockVote} (hgood : good v)
    (hnew : m.mapTxLockVotes.lookup (v.getHash hash) = none)
    (hspares : ReprocessSpares hash env m v) :
    AtRest hash good own (R.add v) ((m.storeVote hash v).processTxLockVote hash env v).2 := by
  unfold processTxLockVote
  rcases hc : (m.storeVote hash v).mapTxLockCandidates.lookup v.txHash with - | c
  · obtain ⟨hnone, hpark⟩ := h.park hgood hnew hc
    have hfresh : ((m.storeVote hash v).mapTxLockVotesOrphan.lookup (v.getHash hash)).isSome =
        false := congrArg Option.isSome hnone
    rw [processTxLockVoteWith_orphan (hvalid v hgood) hc, processOrphanVote, hfresh,
      if_neg Bool.false_ne_true]
    dsimp only
    rcases hfind : ((m.storeVote hash v).storeOrphan hash v).findLockRequest v.txHash
      with - | txLockRequest
    · exact hpark.rateLimit v
    · dsimp only
      split_ifs with henough
      · exact hpark.request hagree hvalid hown _ (hspares hnew hc txLockRequest hfind henough)
      · exact hpark.rateLimit v
  · rw [processTxLockVoteWith_candidate (hvalid v hgood) hc]
    have hcounts : Counts hash good own R (m.storeVote hash v) :=
      ⟨h.counts.received, h.counts.orphan, h.counts.sound, h.counts.complete⟩
    have heffects : Effects env (m.storeVote hash v)
        ((m.storeVote hash v).processCandidateVote hash env v).2 :=
      effects_processCandidateVote (hvalid v hgood) hc
    have hno : NoDangling (m.storeVote hash v) := h.noDangling
    have hprocessed := hcounts.candidateVote hagree hno hgood (hvalid v hgood) hc
    refine ⟨⟨hprocessed.counts, hprocessed.stored _ (stored_storeVote h v),
      hno.effects heffects⟩, fun e he => ?_⟩
    rw [hprocessed.orphans] at he
    have hsettled : Settled own (m.storeVote hash v) e.2 := h.settled e he
    exact hsettled.effects heffects hprocessed.unknown

theorem AtRest.message (h : AtRest hash good own R m) (hopen : GatesOpen env)
    {vote : CTxLockVote} (hgood : good (receive env vote))
    (hsame : ∀ w, m.mapTxLockVotes.lookup (vote.getHash hash) = some w →
      w.Names vote.txHash vote.outpoint vote.outpointMasternode)
    (hspares : ReprocessSpares hash env m (receive env vote)) :
    AtRest hash good own (R.add (receive env vote)) (m.processMessage hash env vote) := by
  obtain ⟨hlite, hspork, hsynced, hversion⟩ := hopen
  unfold processMessage
  rw [hlite, hspork, hsynced]
  have hproto : ¬ env.nVersion < MIN_INSTANTSEND_PROTO_VERSION := by omega
  simp only [hproto, Bool.not_true, Bool.or_false, decide_false, Bool.false_eq_true, if_false]
  rcases hw : m.mapTxLockVotes.lookup ((receive env vote).getHash hash) with - | w
  · exact h.newVote hagree hvalid hown hgood hw hspares
  · exact h.known hgood hw (hsame w hw)

end Messages

/-! ### Runs -/

def Received (es : List (InstantEnv × InstantEvent)) : Ballots :=
  fun txHash o mn => ∃ e ∈ es, ∃ vote, e.2 = .message vote ∧ vote.Names txHash o mn

/-- An arrival: good votes are valid, and agree as far as their hashes do.  Nothing expires. -/
structure Arrives (hash : UInt256 → COutPoint → COutPoint → UInt256) (good : CTxLockVote → Prop)
    (own : COutPoint → Prop) (m : CInstantSend) (e : InstantEnv × InstantEvent) : Prop where
  valid : ∀ v, good v → v.isValid e.1 = true
  own : e.1.fMasterNode = true → own e.1.activeMasternode
  message : ∀ vote, e.2 = .message vote → GatesOpen e.1 ∧ good (receive e.1 vote) ∧
    ∀ w, m.mapTxLockVotes.lookup (vote.getHash hash) = some w →
      w.Names vote.txHash vote.outpoint vote.outpointMasternode
  noDirect : ∀ vote, e.2 ≠ .processTxLockVote vote
  noExpiry : e.2 ≠ .checkAndRemove

/-- Whatever the event replays, the other votes without a candidate are over their rate. -/
def SparesOrphans (hash : UInt256 → COutPoint → COutPoint → UInt256) (m : CInstantSend)
    (e : InstantEnv × InstantEvent) : Prop :=
  (∀ txLockRequest, e.2 = .processTxLockRequest txLockRequest → ReplaySpares e.1 m txLockRequest) ∧
    ∀ vote, e.2 = .message vote → ReprocessSpares hash e.1 m (receive e.1 vote)

/-- The votes received, with those of one more event. -/
def receivedAfter (R : Ballots) (e : InstantEnv × InstantEvent) : Ballots :=
  fun txHash o mn => R txHash o mn ∨ Received [e] txHash o mn

theorem receivedAfter_of_ne {e : InstantEnv × InstantEvent} (h : ∀ vote, e.2 ≠ .message vote) :
    receivedAfter R e = R := by
  funext txHash o mn
  apply propext
  constructor
  · rintro (hr | ⟨e', he', vote, hvote, -⟩)
    · exact hr
    · rw [List.mem_singleton] at he'
      exact absurd (he' ▸ hvote) (h vote)
  · exact Or.inl

theorem receivedAfter_message {vote : CTxLockVote} :
    receivedAfter R (env, .message vote) = R.add (receive env vote) := by
  funext txHash o mn
  apply propext
  constructor
  · rintro (hr | ⟨e', he', vote', hvote', hnames⟩)
    · exact .inl hr
    · rw [List.mem_singleton] at he'
      subst he'
      cases hvote'
      exact .inr hnames
  · rintro (hr | hnames)
    · exact .inl hr
    · exact .inr ⟨_, List.mem_singleton_self _, vote, rfl, hnames⟩

theorem AtRest.step (hagree : Agreeing good) {e : InstantEnv × InstantEvent}
    (h : AtRest hash good own R m) (harrives : Arrives hash good own m e)
    (hspares : SparesOrphans hash m e) : AtRest hash good own (receivedAfter R e) (m.step hash e) := by
  obtain ⟨env, event⟩ := e
  obtain ⟨hvalid, hown, hmessage, hdirect, hexpiry⟩ := harrives
  cases event with
  | message vote =>
    obtain ⟨hopen, hgood, hsame⟩ := hmessage vote rfl
    rw [receivedAfter_message]
    exact h.message hagree hvalid hown hopen hgood hsame (hspares.2 vote rfl)
  | processTxLockVote vote => exact absurd rfl (hdirect vote)
  | processTxLockRequest txLockRequest =>
    rw [receivedAfter_of_ne (fun _ => by simp)]
    exact h.request hagree hvalid hown _ (hspares.1 txLockRequest rfl)
  | vote txHash =>
    rw [receivedAfter_of_ne (fun _ => by simp)]
    exact h.upkeep (effects_vote txHash) (upkeep_vote hown txHash)
  | acceptLockRequest txLockRequest =>
    rw [receivedAfter_of_ne (fun _ => by simp)]
    have hsame : Effects env m (m.acceptLockRequest txLockRequest) :=
      SameLocks.effects ⟨rfl, rfl, rfl⟩
    exact h.upkeep hsame
      ⟨fun _ _ _ => .inl, fun _ => id, rfl, rfl, fun R hs => ⟨hs.1, hs.2⟩⟩
  | rejectLockRequest txLockRequest =>
    rw [receivedAfter_of_ne (fun _ => by simp)]
    have hsame : Effects env m (m.rejectLockRequest txLockRequest) :=
      SameLocks.effects ⟨rfl, rfl, rfl⟩
    exact h.upkeep hsame
      ⟨fun _ _ _ => .inl, fun _ => id, rfl, rfl, fun R hs => ⟨hs.1, hs.2⟩⟩
  | chain event =>
    rw [receivedAfter_of_ne (fun _ => by simp)]
    exact h.upkeep (chainEvent_spec event).1 (upkeep_chainEvent event)
  | checkAndRemove => exact absurd rfl hexpiry

theorem AtRest.run (hagree : Agreeing good) {es : List (InstantEnv × InstantEvent)}
    (hrun : Runs.Run (Runs.Guarded (fun m e => Arrives hash good own m e ∧ SparesOrphans hash m e)
      (CInstantSend.step hash)) m es m') :
    ∀ {R : Ballots}, AtRest hash good own R m →
      AtRest hash good own (fun txHash o mn => R txHash o mn ∨ Received es txHash o mn) m' := by
  induction hrun with
  | nil m =>
    intro R h
    have hnone : (fun txHash o mn => R txHash o mn ∨ Received [] txHash o mn) = R := by
      funext txHash o mn
      simp [Received]
    rw [hnone]
    exact h
  | @cons m₁ m₂ m₃ e es ht _ ih =>
    intro R h
    obtain ⟨⟨harrives, hspares⟩, rfl⟩ := ht
    have hrest := ih (h.step hagree harrives hspares)
    have hreceived : (fun txHash o mn => receivedAfter R e txHash o mn ∨ Received es txHash o mn) =
        fun txHash o mn => R txHash o mn ∨ Received (e :: es) txHash o mn := by
      funext txHash o mn
      simp [receivedAfter, Received, or_assoc]
    rw [← hreceived]
    exact hrest

/-- The candidates hold the votes received, the node's own apart, and all others wait. -/
structure VotesHeld (own : COutPoint → Prop) (es : List (InstantEnv × InstantEvent))
    (m : CInstantSend) : Prop where
  held : ∀ txHash c o lock mn, m.mapTxLockCandidates.lookup txHash = some c →
    c.mapOutPointLocks.lookup o = some lock → ¬ own mn →
      ((∃ v, lock.mapMasternodeVotes.lookup mn = some v ∧ v.Names txHash o mn) ↔
        Received es txHash o mn)
  waiting : ∀ txHash o mn, m.mapTxLockCandidates.lookup txHash = none → ¬ own mn →
    Received es txHash o mn → Waiting m txHash o mn

/-- **No vote is lost because it came early**: in whatever order requests and valid votes come
that do not conflict, if each replay spares the votes that still wait for a request. -/
theorem lock_votes_held (hash : UInt256 → COutPoint → COutPoint → UInt256)
    (good : CTxLockVote → Prop) (own : COutPoint → Prop) (hagree : Agreeing good)
    (es : List (InstantEnv × InstantEvent))
    (hrun : Runs.Run (Runs.Guarded (fun m e => Arrives hash good own m e ∧ SparesOrphans hash m e)
      (step hash)) init es m) : VotesHeld own es m := by
  have hrest : AtRest hash good own (Received es) m := by
    have h := AtRest.run hagree hrun atRest_init
    simpa using h
  have hok : EachCandidate CTxLockCandidate.Ok m := by
    apply hrun.invariant (I := EachCandidate CTxLockCandidate.Ok) _ (eachCandidate_init _)
    rintro m e m' hok ⟨-, rfl⟩
    exact eachCandidate_ok_step e.2 hok
  constructor
  · intro txHash c o lock mn hc hl hown
    have hvoted : c.hasMasternodeVoted o mn = true ↔
        ∃ v, lock.mapMasternodeVotes.lookup mn = some v := by
      rw [CTxLockCandidate.hasMasternodeVoted, hl]
      exact Option.isSome_iff_exists
    have howns : c.Owns o := CTxLockCandidate.owns_iff.mpr ⟨lock, hl⟩
    constructor
    · rintro ⟨v, hv, -⟩
      exact (hrest.counts.sound txHash o mn ⟨c, hc, hvoted.mpr ⟨v, hv⟩⟩).resolve_right hown
    · intro hr
      have hcounted : c.hasMasternodeVoted o mn = true := by
        rcases hrest.counts.complete txHash o mn hr hown with ⟨c', hc', hvoted'⟩ | ⟨k, v, hv, hnames⟩
        · rw [hc, Option.some.injEq] at hc'
          exact hc' ▸ hvoted' (hc' ▸ howns)
        · obtain ⟨rfl, rfl, rfl⟩ := hnames
          exact hrest.settled ⟨k, v⟩ hv hown c hc howns
      obtain ⟨v, hv⟩ := hvoted.mp hcounted
      exact ⟨v, hv, (hok txHash c hc).votes o lock mn v hl hv⟩
  · intro txHash o mn hnone hown hr
    rcases hrest.counts.complete txHash o mn hr hown with ⟨c, hc, -⟩ | hwaiting
    · exact absurd (hnone.symm.trans hc) (by simp)
    · exact hwaiting

/-! ### Concrete runs -/

def sampleVote (txHash : UInt256) (o mn : COutPoint) : CTxLockVote := ⟨txHash, o, mn, [], -1, 0⟩

section Sample

variable (hvalid : ∀ v, good v → v.isValid (sampleEnv 0) = true)
include hvalid

theorem arrives_request (txLockRequest : CTxLockRequest) :
    Arrives sampleHash good (fun _ => False) m (sampleEnv 0, .processTxLockRequest txLockRequest) where
  valid := hvalid
  own h := absurd h (by simp [sampleEnv])
  message _ h := absurd h (by simp)
  noDirect _ := by simp
  noExpiry := by simp

theorem arrives_message {vote : CTxLockVote} (hgood : good (receive (sampleEnv 0) vote))
    (hknown : m.mapTxLockVotes.lookup (vote.getHash sampleHash) = none ∨
      m.mapTxLockVotes.lookup (vote.getHash sampleHash) = some vote) :
    Arrives sampleHash good (fun _ => False) m (sampleEnv 0, .message vote) where
  valid := hvalid
  own h := absurd h (by simp [sampleEnv])
  message vote' h := by
    cases h
    refine ⟨⟨rfl, rfl, rfl, le_refl (70206 : ℤ)⟩, hgood, fun w hw => ?_⟩
    rcases hknown with hnone | hsome
    · exact absurd (hnone.symm.trans hw) (by simp)
    · rw [hsome, Option.some.injEq] at hw
      subst hw
      exact ⟨rfl, rfl, rfl⟩
  noDirect _ := by simp
  noExpiry := by simp

end Sample

def voteAndRequest : List (InstantEnv × InstantEvent) :=
  eventsAt 0 [.message (sampleVote 11 ⟨1, 0⟩ ⟨7, 0⟩),
    .processTxLockRequest (sampleRequest 11 [⟨1, 0⟩]), .message (sampleVote 11 ⟨1, 0⟩ ⟨7, 1⟩)]

theorem lock_votes_held_early :
    VotesHeld (fun _ => False) voteAndRequest (voteAndRequest.foldl (step sampleHash) init) := by
  apply lock_votes_held sampleHash
    (fun v => v = sampleVote 11 ⟨1, 0⟩ ⟨7, 0⟩ ∨ v = sampleVote 11 ⟨1, 0⟩ ⟨7, 1⟩)
  · rintro v w (rfl | rfl) (rfl | rfl) - - <;> rfl
  · have hvalid : ∀ v, v = sampleVote 11 ⟨1, 0⟩ ⟨7, 0⟩ ∨ v = sampleVote 11 ⟨1, 0⟩ ⟨7, 1⟩ →
        v.isValid (sampleEnv 0) = true := by
      rintro v (rfl | rfl) <;> decide +kernel
    apply Runs.Run.of_admits
    refine ⟨⟨arrives_message hvalid (.inl rfl) (.inl rfl), fun _ h => absurd h (by simp), ?_⟩,
      ⟨arrives_request hvalid _, ?_, fun _ h => absurd h (by simp)⟩,
      ⟨arrives_message hvalid (.inr rfl) (.inl (by decide +kernel)),
        fun _ h => absurd h (by simp), ?_⟩, trivial⟩
    · -- no request has come
      rintro vote h
      cases h
      intro _ _ txLockRequest hfind
      change none = some txLockRequest at hfind
      exact absurd hfind (by simp)
    · -- only the vote for this request waits
      rintro txLockRequest h
      cases h
      intro _ k v hv hne
      have hall : ∀ e ∈ (step sampleHash init (sampleEnv 0,
          .message (sampleVote 11 ⟨1, 0⟩ ⟨7, 0⟩))).mapTxLockVotesOrphan.entries, e.2.txHash = 11 := by
        decide +kernel
      exact absurd (hall ⟨k, v⟩ (AList.mem_lookup_iff.mp hv)) hne
    · -- the candidate is there
      rintro vote h
      cases h
      exact fun _ hnone => absurd hnone (by decide +kernel)

/-- A vote comes before its request, and another request comes first. -/
def lostVote : List (InstantEnv × InstantEvent) :=
  eventsAt 0 [.message (sampleVote 12 ⟨2, 0⟩ ⟨7, 0⟩),
    .processTxLockRequest (sampleRequest 11 [⟨1, 0⟩]),
    .processTxLockRequest (sampleRequest 12 [⟨2, 0⟩]), .message (sampleVote 12 ⟨2, 0⟩ ⟨7, 0⟩)]

/-- The vote is lost, even though it is sent again. -/
theorem early_vote_lost : Agreeing (fun v => v = sampleVote 12 ⟨2, 0⟩ ⟨7, 0⟩) ∧
    Runs.Admits (Arrives sampleHash (fun v => v = sampleVote 12 ⟨2, 0⟩ ⟨7, 0⟩) fun _ => False)
      (step sampleHash) init lostVote ∧
    ¬ VotesHeld (fun _ => False) lostVote (lostVote.foldl (step sampleHash) init) := by
  have hvalid : ∀ v, v = sampleVote 12 ⟨2, 0⟩ ⟨7, 0⟩ → v.isValid (sampleEnv 0) = true := by
    rintro v rfl
    decide +kernel
  refine ⟨?_, ⟨arrives_message hvalid rfl (.inl rfl), arrives_request hvalid _,
    arrives_request hvalid _, arrives_message hvalid rfl (.inr (by decide +kernel)), trivial⟩,
    fun h => ?_⟩
  · rintro v w rfl rfl - -
    rfl
  · have hempty : ((lostVote.foldl (step sampleHash) init).mapTxLockCandidates.lookup 12).any
        (fun c => (c.mapOutPointLocks.lookup ⟨2, 0⟩).any
          fun lock => (lock.mapMasternodeVotes.lookup ⟨7, 0⟩).isNone) = true := by
      decide +kernel
    obtain ⟨c, hc, hlock⟩ := (Option.any_eq_true _ _).mp hempty
    obtain ⟨lock, hl, hnone⟩ := (Option.any_eq_true _ _).mp hlock
    obtain ⟨v, hv, -⟩ := (h.held 12 c ⟨2, 0⟩ lock ⟨7, 0⟩ hc hl id).mpr
      ⟨_, List.mem_cons_self, sampleVote 12 ⟨2, 0⟩ ⟨7, 0⟩, rfl, rfl, rfl, rfl⟩
    exact absurd ((Option.isNone_iff_eq_none.mp hnone).symm.trans hv) (by simp)

end CInstantSend

end Stonecoin
