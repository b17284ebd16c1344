/-
What the operations of `CInstantSend` leave alone while no vote comes in.

Confirmations, completed locks and the node's own votes count no vote of another masternode,
make no candidate and do not touch the waiting votes (`Upkeep`); and `mapTxLockVotes` keeps
holding what it held (`Stored`).
-/
import Stonecoin.InstantSendSteps

namespace Stonecoin

def CTxLockVote.Names (vote : CTxLockVote) (txHash : UInt256) (o mn : COutPoint) : Prop :=
  vote.txHash = txHash ∧ vote.outpoint = o ∧ vote.outpointMasternode = mn

/-- Votes that have been received. -/
abbrev Ballots : Type := UInt256 → COutPoint → COutPoint → Prop

def Ballots.add (R : Ballots) (v : CTxLockVote) : Ballots :=
  fun txHash o mn => R txHash o mn ∨ v.Names txHash o mn

theorem Ballots.add_eq_self {R : Ballots} {v : CTxLockVote}
    (h : R v.txHash v.outpoint v.outpointMasternode) : R.add v = R := by
  funext txHash o mn
  apply propext
  constructor
  · rintro (hr | ⟨rfl, rfl, rfl⟩)
    · exact hr
    · exact h
  · exact Or.inl

namespace CInstantSend

variable {hash : UInt256 → COutPoint → COutPoint → UInt256} {env : InstantEnv}
  {m m' m'' : CInstantSend}

variable {own : COutPoint → Prop} {R : Ballots}

/-! ### Stored votes -/

/-- `mapTxLockVotes` has all waiting votes, and nothing but votes received or the node's own. -/
structure Stored (own : COutPoint → Prop) (R : Ballots) (m : CInstantSend) : Prop where
  orphan : ∀ k v, m.mapTxLockVotesOrphan.lookup k = some v →
    ∃ w, m.mapTxLockVotes.lookup k = some w
  vote : ∀ k w, m.mapTxLockVotes.lookup k = some w →
    R w.txHash w.outpoint w.outpointMasternode ∨ own w.outpointMasternode

theorem Stored.insert (h : Stored own R m) {votes : AList fun _ : UInt256 => CTxLockVote}
    {k : UInt256} {w : CTxLockVote}
    (hw : R w.txHash w.outpoint w.outpointMasternode ∨ own w.outpointMasternode)
    (hvotes : votes = m.mapTxLockVotes.insert k w) : Stored own R { m with mapTxLockVotes := votes } := by
  subst hvotes
  refine ⟨fun k' v hv => ?_, fun k' w' hw' => ?_⟩
  · rcases eq_or_ne k' k with rfl | hne
    · exact ⟨w, AList.lookup_insert _⟩
    · obtain ⟨w', hw'⟩ := h.orphan k' v hv
      exact ⟨w', (AList.lookup_insert_ne hne).trans hw'⟩
  · change (m.mapTxLockVotes.insert k w).lookup k' = some w' at hw'
    rcases eq_or_ne k' k with rfl | hne
    · rw [AList.lookup_insert, Option.some.injEq] at hw'
      exact hw' ▸ hw
    · rw [AList.lookup_insert_ne hne] at hw'
      exact h.vote k' w' hw'

theorem Stored.storeVote (h : Stored own R m) {v : CTxLockVote}
    (hv : R v.txHash v.outpoint v.outpointMasternode ∨ own v.outpointMasternode) :
    Stored own R (m.storeVote hash v) := by
  unfold CInstantSend.storeVote insertNew
  rcases hk : m.mapTxLockVotes.lookup (v.getHash hash) with - | w
  · exact h.insert hv rfl
  · exact h

theorem Stored.add (h : Stored own R m) (v : CTxLockVote) : Stored own (R.add v) m :=
  ⟨h.orphan, fun k w hw => (h.vote k w hw).imp_left .inl⟩

/-! ### Upkeep -/

/-- No vote is counted but the node's own; no candidate comes, no vote goes and the stored votes
stay in order. -/
structure Upkeep (own : COutPoint → Prop) (m m' : CInstantSend) : Prop where
  hasVoted : ∀ txHash o mn, m'.HasVoted txHash o mn → m.HasVoted txHash o mn ∨ own mn
  unknown : ∀ txHash, m.mapTxLockCandidates.lookup txHash = none →
    m'.mapTxLockCandidates.lookup txHash = none
  orphans : m'.mapTxLockVotesOrphan = m.mapTxLockVotesOrphan
  times : m'.mapMasternodeOrphanVotes = m.mapMasternodeOrphanVotes
  stored : ∀ R, Stored own R m → Stored own R m'

theorem Upkeep.refl (m : CInstantSend) : Upkeep own m m :=
  ⟨fun _ _ _ => .inl, fun _ => id, rfl, rfl, fun _ => id⟩

theorem Upkeep.trans (h : Upkeep own m m') (h' : Upkeep own m' m'') : Upkeep own m m'' where
  hasVoted txHash o mn hv := by
    rcases h'.hasVoted txHash o mn hv with hv | hown
    · exact h.hasVoted txHash o mn hv
    · exact .inr hown
  unknown txHash hnone := h'.unknown txHash (h.unknown txHash hnone)
  orphans := h'.orphans.trans h.orphans
  times := h'.times.trans h.times
  stored R hs := h'.stored R (h.stored R hs)

theorem upkeep_of_stored {votes : AList fun _ : UInt256 => CTxLockVote}
    (hstored : ∀ R, Stored own R m → Stored own R { m with mapTxLockVotes := votes }) :
    Upkeep own m { m with mapTxLockVotes := votes } :=
  ⟨fun _ _ _ => .inl, fun _ => id, rfl, rfl, hstored⟩

theorem upkeep_setCandidate {txHash : UInt256} {c c' : CTxLockCandidate}
    (hc : m.mapTxLockCandidates.lookup txHash = some c)
    (hvoted : ∀ o mn, c'.hasMasternodeVoted o mn = true →
      c.hasMasternodeVoted o mn = true ∨ own mn) : Upkeep own m (m.setCandidate txHash c') := by
  refine ⟨fun txHash' o mn hv => ?_, fun txHash' hnone => ?_, rfl, rfl, fun R hs => ⟨hs.1, hs.2⟩⟩
  · rcases hasVoted_setCandidate.mp hv with ⟨rfl, hv'⟩ | ⟨-, hv'⟩
    · exact (hvoted o mn hv').imp_left fun hv'' => ⟨c, hc, hv''⟩
    · exact .inl hv'
  · have hne : txHash' ≠ txHash := by
      rintro rfl
      exact absurd (hnone.symm.trans hc) (by simp)
    exact (AList.lookup_insert_ne hne).trans hnone

theorem upkeep_setVoteHeight (nHeightNew : ℤ) (m : CInstantSend) (k : UInt256) :
    Upkeep own m (m.setVoteHeight nHeightNew k) := by
  unfold setVoteHeight
  rcases hw : m.mapTxLockVotes.lookup k with - | w
  · exact .refl m
  · exact upkeep_of_stored fun R hs => hs.insert (w := { w with nConfirmedHeight := nHeightNew })
      (hs.vote k w hw) rfl

theorem upkeep_setOrphanVoteHeight (nHeightNew : ℤ) {k : UInt256} {v : CTxLockVote}
    (hv : m.mapTxLockVotesOrphan.lookup k = some v) :
    Upkeep own m (m.setOrphanVoteHeight env nHeightNew k) := by
  unfold setOrphanVoteHeight
  refine upkeep_of_stored fun R hs => ?_
  obtain ⟨w, hw⟩ := hs.orphan k v hv
  rw [hw]
  exact hs.insert (w := { w with nConfirmedHeight := nHeightNew }) (hs.vote k w hw) rfl

theorem upkeep_syncCandidate (txHash : UInt256) (nHeightNew : ℤ) :
    Upkeep own m (m.syncCandidate hash txHash nHeightNew) := by
  have hloop : ∀ (l : List UInt256) (m : CInstantSend),
      Upkeep own m (l.foldl (setVoteHeight nHeightNew) m) := by
    intro l
    induction l with
    | nil => exact fun m => .refl m
    | cons k l ih => exact fun m => (upkeep_setVoteHeight nHeightNew m k).trans (ih _)
  unfold syncCandidate
  rcases hc : m.mapTxLockCandidates.lookup txHash with - | c
  · exact .refl m
  · have hset : Upkeep own m (m.setCandidate txHash { c with nConfirmedHeight := nHeightNew }) :=
      upkeep_setCandidate hc fun _ _ => .inl
    exact hset.trans (hloop _ _)

theorem upkeep_chainEvent (event : ChainEvent) : Upkeep own m (m.chainEvent hash env event) := by
  have hloop : ∀ (nHeightNew : ℤ) (l : List (Sigma fun _ : UInt256 => CTxLockVote))
      (m : CInstantSend), (∀ e ∈ l, m.mapTxLockVotesOrphan.lookup e.1 = some e.2) →
      Upkeep own m (l.foldl (fun m e => m.setOrphanVoteHeight env nHeightNew e.1) m) := by
    intro nHeightNew l
    induction l with
    | nil => exact fun m _ => .refl m
    | cons e l ih =>
      intro m hl
      have he : Upkeep own m (m.setOrphanVoteHeight env nHeightNew e.1) :=
        upkeep_setOrphanVoteHeight nHeightNew (hl e List.mem_cons_self)
      exact he.trans (ih _ fun e' he' => hl e' (List.mem_cons_of_mem _ he'))
  cases event with
  | updatedBlockTip nHeight =>
    exact ⟨fun _ _ _ => .inl, fun _ => id, rfl, rfl, fun R hs => ⟨hs.1, hs.2⟩⟩
  | syncTransaction tx nHeightNew =>
    show Upkeep own m (m.syncTransaction hash env tx nHeightNew)
    unfold syncTransaction
    split_ifs
    · exact .refl m
    · refine (upkeep_syncCandidate tx.hash nHeightNew).trans (hloop nHeightNew _ _ fun e he => ?_)
      exact AList.mem_lookup_iff.mpr (List.mem_of_mem_filter he)

theorem upkeep_chainEvents : ∀ (events : List ChainEvent) (m : CInstantSend),
    Upkeep own m (events.foldl (chainEvent hash env) m)
  | [], m => .refl m
  | event :: events, _ => (upkeep_chainEvent event).trans (upkeep_chainEvents events _)

theorem upkeep_tryToFinalizeLockCandidate (txHash : UInt256) :
    Upkeep own m (m.tryToFinalizeLockCandidate hash env txHash) := by
  have hresolve : ∀ c, Upkeep own m (m.resolveConflicts hash env c).2 := by
    intro c
    unfold resolveConflicts
    split_ifs
    · exact .refl m
    · exact .refl m
    · exact .refl m
    · exact upkeep_chainEvents _ m
  have hlock : ∀ (m : CInstantSend) c, Upkeep own m (m.lockTransactionInputs c) := by
    intro m c
    unfold lockTransactionInputs
    split_ifs
    · exact .refl m
    · exact ⟨fun _ _ _ => .inl, fun _ => id, rfl, rfl, fun R hs => ⟨hs.1, hs.2⟩⟩
  unfold tryToFinalizeLockCandidate
  cases m.mapTxLockCandidates.lookup txHash with
  | none => exact .refl m
  | some c =>
    dsimp only
    split_ifs
    · have hc := hresolve c
      rcases hr : m.resolveConflicts hash env c with ⟨ok, m'⟩
      rw [hr] at hc
      cases ok with
      | false => exact hc
      | true => exact hc.trans (hlock m' c)
    · exact .refl m

/-! ### The node's own votes -/

theorem upkeep_voteOutpoint (hown : own env.activeMasternode) {txHash : UInt256} {o : COutPoint}
    (h : m.voteOutpoint hash env txHash o = some m') : Upkeep own m m' := by
  unfold voteOutpoint at h
  dsimp only at h
  split_ifs at h
  · exact Option.some.inj h ▸ .refl m
  · exact Option.some.inj h ▸ .refl m
  · exact Option.some.inj h ▸ .refl m
  · rcases hs : CTxLockVote.sign env txHash o with - | vote
    · simp [hs] at h
    rw [hs] at h
    dsimp only at h
    split_ifs at h
    have hmn : own vote.outpointMasternode := by
      rw [(CTxLockVote.sign_eq_some hs).2.2]
      exact hown
    have hstore : Upkeep own m (m.storeVote hash vote) :=
      upkeep_of_stored fun R hs => hs.storeVote (.inr hmn)
    rcases ha : (m.storeVote hash vote).addVote vote with - | m₁
    · rw [ha] at h
      exact Option.some.inj h ▸ hstore
    · rw [ha] at h
      obtain ⟨c, c', hc, hadd, rfl⟩ := addVote_eq_some ha
      have hset : Upkeep own (m.storeVote hash vote)
          ((m.storeVote hash vote).setCandidate vote.txHash c') := by
        refine upkeep_setCandidate hc fun o mn hv => ?_
        rcases (CTxLockCandidate.hasMasternodeVoted_addVote hadd).mp hv with ⟨-, rfl⟩ | hv
        · exact .inr hmn
        · exact .inl hv
      have hvoted : Upkeep own ((m.storeVote hash vote).setCandidate vote.txHash c')
          (((m.storeVote hash vote).setCandidate vote.txHash c').addVotedOutpoint o txHash) :=
        ⟨fun _ _ _ => .inl, fun _ => id, rfl, rfl, fun R hs => ⟨hs.1, hs.2⟩⟩
      exact Option.some.inj h ▸ (hstore.trans hset).trans hvoted

theorem upkeep_voteLoop (hown : own env.activeMasternode) (txHash : UInt256) :
    ∀ (outpoints : List COutPoint) (m : CInstantSend),
      Upkeep own m (m.voteLoop hash env txHash outpoints)
  | [], m => .refl m
  | o :: outpoints, m => by
    unfold voteLoop
    rcases hv : m.voteOutpoint hash env txHash o with - | m'
    · exact .refl m
    · exact (upkeep_voteOutpoint hown hv).trans (upkeep_voteLoop hown txHash outpoints m')

theorem upkeep_vote (hown : env.fMasterNode = true → own env.activeMasternode)
    (txHash : UInt256) : Upkeep own m (m.vote hash env txHash) := by
  unfold vote
  split_ifs with hmn
  · exact .refl m
  · cases m.mapTxLockCandidates.lookup txHash with
    | none => exact .refl m
    | some c => exact upkeep_voteLoop (hown (by simpa using hmn)) txHash _ m

end CInstantSend

end Stonecoin
