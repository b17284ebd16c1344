/-
InstantSend votes that wait for their request, and their replay.

A replay runs every waiting vote through `ProcessTxLockVote` and erases it if the result is
`true`.  A vote whose request has not come gives `true` as well, unless its masternode is over
its rate; it is then neither counted nor waiting.
-/
import Stonecoin.LockVoteUpkeep
import Stonecoin.VotedOutpoints

namespace Stonecoin

namespace CInstantSend

variable {hash : UInt256 → COutPoint → COutPoint → UInt256} {env : InstantEnv}
  {m m' : CInstantSend} {own : COutPoint → Prop} {good : CTxLockVote → Prop} {R : Ballots}

/-! ### Counted and waiting votes -/

/-- The transaction has a candidate, which has the vote if the outpoint is one of its own. -/
def Counted (m : CInstantSend) (txHash : UInt256) (o mn : COutPoint) : Prop :=
  ∃ c, m.mapTxLockCandidates.lookup txHash = some c ∧
    (c.Owns o → c.hasMasternodeVoted o mn = true)

def Waiting (m : CInstantSend) (txHash : UInt256) (o mn : COutPoint) : Prop :=
  ∃ k v, m.mapTxLockVotesOrphan.lookup k = some v ∧ v.Names txHash o mn

/-- Every vote received, the node's own apart, has been counted or waits, and no others have. -/
structure Counts (hash : UInt256 → COutPoint → COutPoint → UInt256) (good : CTxLockVote → Prop)
    (own : COutPoint → Prop) (R : Ballots) (m : CInstantSend) : Prop where
  received : ∀ txHash o mn, R txHash o mn → ∃ v, good v ∧ v.Names txHash o mn
  orphan : ∀ k v, m.mapTxLockVotesOrphan.lookup k = some v → k = v.getHash hash ∧ good v ∧
    R v.txHash v.outpoint v.outpointMasternode
  sound : ∀ txHash o mn, m.HasVoted txHash o mn → R txHash o mn ∨ own mn
  complete : ∀ txHash o mn, R txHash o mn → ¬ own mn →
    Counted m txHash o mn ∨ Waiting m txHash o mn

/-- A waiting vote has no candidate that should have it. -/
def Settled (own : COutPoint → Prop) (m : CInstantSend) (v : CTxLockVote) : Prop :=
  ¬ own v.outpointMasternode → ∀ c, m.mapTxLockCandidates.lookup v.txHash = some c →
    c.Owns v.outpoint → c.hasMasternodeVoted v.outpoint v.outpointMasternode = true

theorem Counted.effects (he : Effects env m m') {txHash : UInt256} {o mn : COutPoint}
    (h : Counted m txHash o mn) : Counted m' txHash o mn := by
  obtain ⟨c, hc, hvoted⟩ := h
  obtain ⟨c', hc', hevolves⟩ := he.evolves hc
  exact ⟨c', hc', fun ho => hevolves.voted o mn (hvoted ((hevolves.owns o).mp ho))⟩

theorem Settled.effects (he : Effects env m m')
    (hunknown : ∀ txHash, m.mapTxLockCandidates.lookup txHash = none →
      m'.mapTxLockCandidates.lookup txHash = none) {v : CTxLockVote} (h : Settled own m v) :
    Settled own m' v := by
  intro hown c' hc' ho
  rcases hc : m.mapTxLockCandidates.lookup v.txHash with - | c
  · exact absurd (hc'.symm.trans (hunknown _ hc)) (by simp)
  · obtain ⟨c'', hc'', hevolves⟩ := he.evolves hc
    rw [hc', Option.some.injEq] at hc''
    subst hc''
    exact hevolves.voted _ _ (h hown c hc ((hevolves.owns _).mp ho))

theorem Counts.effects (h : Counts hash good own R m) (he : Effects env m m')
    (horphans : m'.mapTxLockVotesOrphan = m.mapTxLockVotesOrphan)
    (hvoted : ∀ txHash o mn, m'.HasVoted txHash o mn → m.HasVoted txHash o mn ∨ own mn) :
    Counts hash good own R m' where
  received := h.received
  orphan k v hv := h.orphan k v (horphans ▸ hv)
  sound txHash o mn hv := by
    rcases hvoted txHash o mn hv with hv | hown
    · exact h.sound txHash o mn hv
    · exact .inr hown
  complete txHash o mn hr hown := by
    rcases h.complete txHash o mn hr hown with hc | ⟨k, v, hv, hnames⟩
    · exact .inl (hc.effects he)
    · exact .inr ⟨k, v, by rw [horphans, hv], hnames⟩

theorem Counts.add (h : Counts hash good own R m) {v : CTxLockVote} (hgood : good v)
    (hheld : ¬ own v.outpointMasternode →
      Counted m v.txHash v.outpoint v.outpointMasternode ∨
        Waiting m v.txHash v.outpoint v.outpointMasternode) : Counts hash good own (R.add v) m where
  received txHash o mn := by
    rintro (hr | hnames)
    · exact h.received txHash o mn hr
    · exact ⟨v, hgood, hnames⟩
  orphan k w hw := (h.orphan k w hw).imp_right fun hr => hr.imp_right .inl
  sound txHash o mn hv := (h.sound txHash o mn hv).imp_left .inl
  complete txHash o mn := by
    rintro (hr | ⟨rfl, rfl, rfl⟩) hown
    · exact h.complete txHash o mn hr hown
    · exact hheld hown

theorem Counts.eraseOrphan (h : Counts hash good own R m) {k : UInt256} {v : CTxLockVote}
    (hv : m.mapTxLockVotesOrphan.lookup k = some v)
    (hcounted : ¬ own v.outpointMasternode →
      Counted m v.txHash v.outpoint v.outpointMasternode) :
    Counts hash good own R (m.eraseOrphan k) where
  received := h.received
  orphan k' v' hv' := by
    change (m.mapTxLockVotesOrphan.erase k).lookup k' = some v' at hv'
    rcases eq_or_ne k' k with rfl | hne
    · simp at hv'
    · rw [AList.lookup_erase_ne hne] at hv'
      exact h.orphan k' v' hv'
  sound := h.sound
  complete txHash o mn hr hown := by
    rcases h.complete txHash o mn hr hown with hc | ⟨k', v', hv', hnames⟩
    · exact .inl hc
    · rcases eq_or_ne k' k with rfl | hne
      · rw [hv, Option.some.injEq] at hv'
        subst hv'
        obtain ⟨rfl, rfl, rfl⟩ := hnames
        exact .inl (hcounted hown)
      · exact .inr ⟨k', v', (AList.lookup_erase_ne hne).trans hv', hnames⟩

/-! ### One vote for a candidate -/

/-- Good votes of one masternode for one outpoint are for one transaction. -/
def Agreeing (good : CTxLockVote → Prop) : Prop :=
  ∀ v w, good v → good w → v.outpoint = w.outpoint →
    v.outpointMasternode = w.outpointMasternode → v.txHash = w.txHash

theorem Counts.counted (h : Counts hash good own R m) {v : CTxLockVote} (hgood : good v)
    {c c' : CTxLockCandidate} (hc : m.mapTxLockCandidates.lookup v.txHash = some c)
    (hadd : c.addVote v = some c') :
    Counts hash good own (R.add v)
        ((m.addVotedOutpoint v.outpoint v.txHash).setCandidate v.txHash c') ∧
      Counted ((m.addVotedOutpoint v.outpoint v.txHash).setCandidate v.txHash c')
        v.txHash v.outpoint v.outpointMasternode := by
  have hcounted : Counted ((m.addVotedOutpoint v.outpoint v.txHash).setCandidate v.txHash c')
      v.txHash v.outpoint v.outpointMasternode := by
    refine ⟨c', AList.lookup_insert _, fun _ => ?_⟩
    exact (CTxLockCandidate.hasMasternodeVoted_addVote hadd).mpr (.inl ⟨rfl, rfl⟩)
  refine ⟨⟨?_, ?_, fun txHash o mn hv => ?_, fun txHash o mn hr hown => ?_⟩, hcounted⟩
  · rintro txHash o mn (hr | hnames)
    · exact h.received txHash o mn hr
    · exact ⟨v, hgood, hnames⟩
  · exact fun k w hw => (h.orphan k w hw).imp_right fun hr => hr.imp_right .inl
  · rcases hasVoted_setCandidate.mp hv with ⟨rfl, hv'⟩ | ⟨-, hv'⟩
    · rcases (CTxLockCandidate.hasMasternodeVoted_addVote hadd).mp hv' with ⟨rfl, rfl⟩ | hv'
      · exact .inl (.inr ⟨rfl, rfl, rfl⟩)
      · exact (h.sound _ o mn ⟨c, hc, hv'⟩).imp_left .inl
    · exact (h.sound txHash o mn hv').imp_left .inl
  · rcases hr with hr | ⟨rfl, rfl, rfl⟩
    · rcases h.complete txHash o mn hr hown with ⟨c₁, hc₁, hvoted⟩ | hwaiting
      · rcases eq_or_ne txHash v.txHash with rfl | hne
        · rw [hc, Option.some.injEq] at hc₁
          subst hc₁
          refine .inl ⟨c', AList.lookup_insert _, fun ho => ?_⟩
          have hevolves := CTxLockCandidate.evolves_addVote hadd
          exact hevolves.voted o mn (hvoted ((hevolves.owns o).mp ho))
        · exact .inl ⟨c₁, (AList.lookup_insert_ne hne).trans hc₁, hvoted⟩
      · exact .inr hwaiting
    · exact .inl hcounted

structure Processed (hash : UInt256 → COutPoint → COutPoint → UInt256) (good : CTxLockVote → Prop)
    (own : COutPoint → Prop) (R : Ballots) (m m' : CInstantSend) (v : CTxLockVote) : Prop where
  counts : Counts hash good own (R.add v) m'
  stored : ∀ R, Stored own R m → Stored own R m'
  unknown : ∀ txHash, m.mapTxLockCandidates.lookup txHash = none →
    m'.mapTxLockCandidates.lookup txHash = none
  orphans : m'.mapTxLockVotesOrphan = m.mapTxLockVotesOrphan
  times : m'.mapMasternodeOrphanVotes = m.mapMasternodeOrphanVotes
  counted : ¬ own v.outpointMasternode → Counted m' v.txHash v.outpoint v.outpointMasternode

theorem Counts.candidateVote (hagree : Agreeing good) (h : Counts hash good own R m)
    (hno : NoDangling m) {v : CTxLockVote} (hgood : good v) (hvalid : v.isValid env = true)
    {c : CTxLockCandidate} (hc : m.mapTxLockCandidates.lookup v.txHash = some c) :
    Processed hash good own R m (m.processCandidateVote hash env v).2 v := by
  unfold processCandidateVote
  split_ifs with hvoted
  · -- only a vote of the node itself can be in the way
    have hown : own v.outpointMasternode := by
      obtain ⟨txHash, hmem, hne, hv⟩ := Finset.filter_nonempty_iff.mp hvoted
      obtain ⟨c', hc'⟩ := hno v.outpoint txHash hmem
      unfold hasVotedIn at hv
      rw [hc'] at hv
      rcases h.sound txHash v.outpoint v.outpointMasternode ⟨c', hc', hv⟩ with hr | hown
      · obtain ⟨w, hw, rfl, ho, hmn⟩ := h.received _ _ _ hr
        exact absurd (hagree w v hw hgood ho hmn) hne
      · exact hown
    exact ⟨h.add hgood fun hnot => absurd hown hnot, fun _ => id, fun _ => id, rfl, rfl,
      fun hnot => absurd hown hnot⟩
  · dsimp only
    unfold addVote
    rw [show (m.addVotedOutpoint v.outpoint v.txHash).mapTxLockCandidates.lookup v.txHash =
      some c from hc]
    dsimp only
    rcases ha : c.addVote v with - | c'
    · -- the candidate refuses a vote that it has
      have hcounted : Counted (m.addVotedOutpoint v.outpoint v.txHash) v.txHash v.outpoint
          v.outpointMasternode :=
        ⟨c, hc, CTxLockCandidate.hasMasternodeVoted_of_addVote_eq_none ha⟩
      have hcounts : Counts hash good own R (m.addVotedOutpoint v.outpoint v.txHash) :=
        h.effects (Effect.refused hvalid hc ha).effects rfl fun _ _ _ => .inl
      exact ⟨hcounts.add hgood fun _ => .inl hcounted, fun R hs => ⟨hs.1, hs.2⟩, fun _ => id, rfl,
        rfl, fun _ => hcounted⟩
    · have hset := h.counted hgood hc ha
      have hup : Upkeep own ((m.addVotedOutpoint v.outpoint v.txHash).setCandidate v.txHash c')
          (((m.addVotedOutpoint v.outpoint v.txHash).setCandidate v.txHash
            c').tryToFinalizeLockCandidate hash env v.txHash) :=
        upkeep_tryToFinalizeLockCandidate v.txHash
      have heffects : Effects env
          ((m.addVotedOutpoint v.outpoint v.txHash).setCandidate v.txHash c')
          (((m.addVotedOutpoint v.outpoint v.txHash).setCandidate v.txHash
            c').tryToFinalizeLockCandidate hash env v.txHash) :=
        effects_tryToFinalizeLockCandidate v.txHash
      refine ⟨hset.1.effects heffects hup.orphans hup.hasVoted,
        fun R hs => hup.stored R ⟨hs.1, hs.2⟩, fun txHash hnone => hup.unknown txHash ?_,
        hup.orphans, hup.times, fun _ => hset.2.effects heffects⟩
      have hne : txHash ≠ v.txHash := by
        rintro rfl
        exact absurd (hnone.symm.trans hc) (by simp)
      exact (AList.lookup_insert_ne hne).trans hnone

/-! ### A replay -/

/-- Votes are counted, stored and recorded as they should be. -/
structure Kept (hash : UInt256 → COutPoint → COutPoint → UInt256) (good : CTxLockVote → Prop)
    (own : COutPoint → Prop) (R : Ballots) (m : CInstantSend) : Prop where
  counts : Counts hash good own R m
  stored : Stored own R m
  noDangling : NoDangling m

/-- In the middle of a replay: these waiting votes are still to come. -/
structure Replaying (hash : UInt256 → COutPoint → COutPoint → UInt256) (env : InstantEnv)
    (good : CTxLockVote → Prop) (own : COutPoint → Prop) (R : Ballots)
    (l : List (Sigma fun _ : UInt256 => CTxLockVote)) (m : CInstantSend) : Prop
    extends Kept hash good own R m where
  waiting : ∀ e ∈ l, m.mapTxLockVotesOrphan.lookup e.1 = some e.2
  settled : ∀ e : Sigma fun _ : UInt256 => CTxLockVote,
    m.mapTxLockVotesOrphan.lookup e.1 = some e.2 → e ∈ l ∨ Settled own m e.2
  spamming : ∀ e ∈ l, m.mapTxLockCandidates.lookup e.2.txHash = none →
    m.isSpamming env e.2.outpointMasternode = true

theorem isSpamming_congr (h : m'.mapMasternodeOrphanVotes = m.mapMasternodeOrphanVotes)
    (mn : COutPoint) : m'.isSpamming env mn = m.isSpamming env mn := by
  unfold isSpamming getAverageMasternodeOrphanVoteTime
  rw [h]

theorem Counted.settled {v : CTxLockVote}
    (h : ¬ own v.outpointMasternode → Counted m v.txHash v.outpoint v.outpointMasternode) :
    Settled own m v := by
  intro hown c hc ho
  obtain ⟨c', hc', hvoted⟩ := h hown
  rw [hc, Option.some.injEq] at hc'
  exact hc' ▸ hvoted (hc' ▸ ho)

theorem replayOrphan_of_spamming (reprocess : CInstantSend → CTxLockRequest → CInstantSend)
    {e : Sigma fun _ : UInt256 => CTxLockVote}
    (hv : m.mapTxLockVotesOrphan.lookup e.1 = some e.2) (hk : e.1 = e.2.getHash hash)
    (hc : m.mapTxLockCandidates.lookup e.2.txHash = none)
    (hspam : m.isSpamming env e.2.outpointMasternode = true) :
    m.replayOrphan hash env reprocess e = m := by
  have hprocess : m.processTxLockVoteWith hash env reprocess e.2 = (false, m) := by
    unfold processTxLockVoteWith
    rw [hc]
    split_ifs
    · rfl
    · dsimp only
      unfold processOrphanVote
      rw [← hk, hv]
      show m.rateLimit env e.2 = (false, m)
      rw [rateLimit, if_pos hspam]
  unfold replayOrphan
  rw [hprocess]

section Replay

variable (hagree : Agreeing good) (hvalid : ∀ v, good v → v.isValid env = true)
  {l : List (Sigma fun _ : UInt256 => CTxLockVote)} {e : Sigma fun _ : UInt256 => CTxLockVote}

theorem Replaying.eraseOrphan (h : Replaying hash env good own R l m)
    (hv : m.mapTxLockVotesOrphan.lookup e.1 = some e.2) (hkeys : ∀ e' ∈ l, e'.1 ≠ e.1)
    (hcounted : ¬ own e.2.outpointMasternode →
      Counted m e.2.txHash e.2.outpoint e.2.outpointMasternode) :
    Replaying hash env good own R l (m.eraseOrphan e.1) where
  counts := h.counts.eraseOrphan hv hcounted
  stored := by
    refine ⟨fun k v hv' => ?_, h.stored.vote⟩
    change (m.mapTxLockVotesOrphan.erase e.1).lookup k = some v at hv'
    rcases eq_or_ne k e.1 with rfl | hne
    · simp at hv'
    · exact h.stored.orphan k v ((AList.lookup_erase_ne hne).symm.trans hv')
  noDangling := h.noDangling
  waiting e' he' := (AList.lookup_erase_ne (hkeys e' he')).trans (h.waiting e' he')
  settled e' hv' := by
    change (m.mapTxLockVotesOrphan.erase e.1).lookup e'.1 = some e'.2 at hv'
    rcases eq_or_ne e'.1 e.1 with he | hne
    · rw [he] at hv'
      simp at hv'
    · exact h.settled e' ((AList.lookup_erase_ne hne).symm.trans hv')
  spamming := h.spamming

include hagree hvalid

theorem Replaying.step (reprocess : CInstantSend → CTxLockRequest → CInstantSend)
    (h : Replaying hash env good own R (e :: l) m) (hkeys : ∀ e' ∈ l, e'.1 ≠ e.1) :
    Replaying hash env good own R l (m.replayOrphan hash env reprocess e) := by
  have hv := h.waiting e List.mem_cons_self
  obtain ⟨hk, hgood, hr⟩ := h.counts.orphan e.1 e.2 hv
  have htail : ∀ e' ∈ l, e' ∈ e :: l := fun _ => List.mem_cons_of_mem e
  rcases hc : m.mapTxLockCandidates.lookup e.2.txHash with - | c
  · rw [replayOrphan_of_spamming reprocess hv hk hc (h.spamming e List.mem_cons_self hc)]
    refine ⟨h.toKept, fun e' he' => h.waiting e' (htail e' he'),
      fun e' hv' => ?_, fun e' he' => h.spamming e' (htail e' he')⟩
    rcases h.settled e' hv' with hmem | hsettled
    · rcases List.mem_cons.mp hmem with rfl | hmem
      · refine .inr fun _ c hc' => ?_
        exact absurd (hc'.symm.trans hc) (by simp)
      · exact .inl hmem
    · exact .inr hsettled
  · have heffects : Effects env m (m.processCandidateVote hash env e.2).2 :=
      effects_processCandidateVote (hvalid e.2 hgood) hc
    have hprocessed := h.counts.candidateVote hagree h.noDangling hgood (hvalid e.2 hgood) hc
    unfold replayOrphan
    rw [processTxLockVoteWith_candidate (hvalid e.2 hgood) hc]
    generalize m.processCandidateVote hash env e.2 = r at heffects hprocessed ⊢
    obtain ⟨ok, m₁⟩ := r
    have hm₁ : Replaying hash env good own R l m₁ := by
      have hcounts : Counts hash good own R m₁ := Ballots.add_eq_self hr ▸ hprocessed.counts
      refine ⟨⟨hcounts, hprocessed.stored R h.stored, h.noDangling.effects heffects⟩,
        fun e' he' => ?_, fun e' hv' => ?_, fun e' he' hnone => ?_⟩
      · exact (congrArg (AList.lookup e'.1) hprocessed.orphans).trans (h.waiting e' (htail e' he'))
      · have hv'' := (congrArg (AList.lookup e'.1) hprocessed.orphans).symm.trans hv'
        rcases h.settled e' hv'' with hmem | hsettled
        · rcases List.mem_cons.mp hmem with rfl | hmem
          · exact .inr (Counted.settled hprocessed.counted)
          · exact .inl hmem
        · exact .inr (hsettled.effects heffects hprocessed.unknown)
      · rw [isSpamming_congr hprocessed.times]
        apply h.spamming e' (htail e' he')
        rcases hc' : m.mapTxLockCandidates.lookup e'.2.txHash with - | c'
        · rfl
        · obtain ⟨c'', hc'', -⟩ := heffects.evolves hc'
          exact absurd (hnone.symm.trans hc'') (by simp)
    cases ok with
    | false => exact hm₁
    | true =>
      exact hm₁.eraseOrphan ((congrArg (AList.lookup e.1) hprocessed.orphans).trans hv) hkeys
        hprocessed.counted

theorem Replaying.run (reprocess : CInstantSend → CTxLockRequest → CInstantSend) :
    ∀ {l : List (Sigma fun _ : UInt256 => CTxLockVote)} {m : CInstantSend},
      (l.map Sigma.fst).Nodup → Replaying hash env good own R l m →
      Replaying hash env good own R [] (l.foldl (replayOrphan hash env reprocess) m)
  | [], _, _, h => h
  | e :: l, m, hnodup, h => by
    rw [List.map_cons, List.nodup_cons] at hnodup
    rw [List.foldl_cons]
    refine Replaying.run reprocess hnodup.2 (h.step hagree hvalid reprocess fun e' he' hk => ?_)
    exact hnodup.1 (List.mem_map.mpr ⟨e', he', hk⟩)

end Replay

end CInstantSend

end Stonecoin
