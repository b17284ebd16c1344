/-
How often a masternode may vote: the rate check of `CGovernanceObject::ProcessVote`.

The time that the check compares with is the `nTime` of the record, and a vote that is
accepted writes this time back (`nVoteTimeUpdate` gets the new time only on the way to
`return false`).  So it never moves (`nTime_processVote`), and the calls that are accepted are
those that pass every other check from a fixed time on (`acceptedCalls_eq`).
-/
import Stonecoin.GovernanceTally

namespace Stonecoin

/-- A call of `ProcessVote`, and what the rest of the node answers to it. -/
structure VoteCall where
  env : GovernanceEnv
  vote : CGovernanceVote

/-- The masternode index and the signal. -/
def VoteCall.pair (call : VoteCall) : ℤ × ℤ :=
  (call.env.getMasternodeIndex call.vote.vinMasternode.prevout, call.vote.getSignal)

namespace CGovernanceObject

section

variable {H : Type} [DecidableEq H] (hash : CTxIn → UInt256 → ℤ → ℤ → ℤ → H)

/-- The calls that return true, with rate checks enabled. -/
def acceptedCalls : CGovernanceObject H → List VoteCall → List VoteCall
  | _, [] => []
  | o, call :: calls =>
    let r := o.processVote hash call.env true call.vote
    if r.fOk then call :: acceptedCalls r.govobj calls else acceptedCalls r.govobj calls

/-- The checks of `ProcessVote` but that of the rate. -/
def PassesOthers (o : CGovernanceObject H) (call : VoteCall) : Prop :=
  0 ≤ call.pair.1 ∧ Supported call.pair.2 ∧
    (o.instanceOf call.pair.1 call.pair.2).nCreationTime ≤ call.vote.nTime ∧
    call.env.isValid call.vote = true

instance (o : CGovernanceObject H) (call : VoteCall) : Decidable (o.PassesOthers call) :=
  inferInstanceAs (Decidable (_ ∧ _ ∧ _ ∧ _))

/-- The calls that pass the other checks, each in the state that it meets. -/
def passingCalls : CGovernanceObject H → List VoteCall → List VoteCall
  | _, [] => []
  | o, call :: calls =>
    let r := o.processVote hash call.env true call.vote
    if o.PassesOthers call then call :: passingCalls r.govobj calls
    else passingCalls r.govobj calls

/-- **The rate limit.** -/
def RateLimited (o : CGovernanceObject H) (calls : List VoteCall) : Prop :=
  (acceptedCalls hash o calls).Pairwise fun c c' =>
    c.pair = c'.pair → GOVERNANCE_UPDATE_MIN ≤ c'.env.getTime - c.env.getTime

end

variable {H : Type} [DecidableEq H] {hash : CTxIn → UInt256 → ℤ → ℤ → ℤ → H}
  {o : CGovernanceObject H}

/-! ### One call -/

theorem fOk_processVote {fRate : Bool} (call : VoteCall) :
    (o.processVote hash call.env fRate call.vote).fOk = true ↔ o.PassesOthers call ∧
      (fRate = true → GOVERNANCE_UPDATE_MIN ≤
        call.env.getTime - (o.instanceOf call.pair.1 call.pair.2).nTime) := by
  unfold PassesOthers VoteCall.pair
  by_cases hindex : 0 ≤ call.env.getMasternodeIndex call.vote.vinMasternode.prevout
  · by_cases hs : Supported call.vote.getSignal
    · rw [processVote_supported hindex hs]
      dsimp only
      split_ifs with hold hrate hvalid hhas
      · simp [hold]
      · -- refused by the rate
        simp only [Bool.and_eq_true, decide_eq_true_eq] at hrate
        simp [hrate]
      · simp only [Bool.not_eq_true'] at hvalid
        simp [hvalid]
      · simp only [Bool.not_eq_true', Bool.not_eq_false] at hvalid hhas
        rw [has_of_isValid hvalid] at hhas
        cases hhas
      · simp only [Bool.and_eq_true, decide_eq_true_eq, not_and, Int.not_lt, Bool.not_eq_true',
          Bool.not_eq_false] at hold hrate hvalid
        simp only [hindex, hs, hold, hvalid, true_and, true_iff]
        exact hrate
    · rw [(processVote_unsupported hash o fRate hindex hs).1]
      simp [hs]
  · rw [processVote]
    dsimp only
    rw [if_pos (Int.not_le.mp hindex)]
    simp [hindex]

variable (hash o) in
theorem nTime_processVote (env : GovernanceEnv) (fRate : Bool) (vote : CGovernanceVote)
    (i s : ℤ) : ((o.processVote hash env fRate vote).govobj.instanceOf i s).nTime =
      (o.instanceOf i s).nTime := by
  have htouched : ((o.touch (env.getMasternodeIndex vote.vinMasternode.prevout)
      vote.getSignal).instanceOf i s).nTime = (o.instanceOf i s).nTime := by
    rw [instanceOf, getInstance_touched]
    split_ifs with h
    · rw [h.1, h.2]
      rfl
    · rfl
  by_cases hindex : 0 ≤ env.getMasternodeIndex vote.vinMasternode.prevout
  · by_cases hs : Supported vote.getSignal
    · rw [processVote_supported hindex hs]
      dsimp only
      split_ifs
      · exact htouched
      · exact htouched
      · exact htouched
      · exact htouched
      · -- the record is written, with the time that it had
        dsimp only
        rw [instanceOf, getInstance_record]
        split_ifs with h
        · rw [h.1, h.2]
          rfl
        · rfl
    · rw [(processVote_unsupported hash o fRate hindex hs).2, instanceOf, getInstance_touch]
      rfl
  · rw [processVote]
    dsimp only
    rw [if_pos (Int.not_le.mp hindex)]
    rfl

/-! ### Runs -/

theorem acceptedCalls_eq : ∀ {calls : List VoteCall} {o : CGovernanceObject H},
    acceptedCalls hash o calls = (passingCalls hash o calls).filter fun call =>
      GOVERNANCE_UPDATE_MIN ≤
        call.env.getTime - (o.instanceOf call.pair.1 call.pair.2).nTime := by
  intro calls
  induction calls with
  | nil => exact fun {_} => rfl
  | cons call calls ih =>
    intro o
    rw [acceptedCalls, passingCalls]
    simp only [fOk_processVote, forall_const]
    rw [ih]
    simp only [nTime_processVote]
    by_cases hp : o.PassesOthers call
    · rw [if_pos hp, List.filter_cons]
      simp only [hp, true_and, decide_eq_true_eq]
    · rw [if_neg hp, if_neg fun h => hp h.1]

theorem sublist_passingCalls : ∀ {calls : List VoteCall} {o : CGovernanceObject H},
    (passingCalls hash o calls).Sublist calls := by
  intro calls
  induction calls with
  | nil => exact fun {_} => .slnil
  | cons call calls ih =>
    intro o
    rw [passingCalls]
    split
    · exact ih.cons_cons call
    · exact ih.cons call

/-- **When the rate limit holds**: of any two calls for one masternode and signal that pass the
other checks, the second comes late enough, or the first too early for its record.  The code
itself keeps no two votes apart. -/
theorem rateLimited_iff {calls : List VoteCall}
    (htime : calls.Pairwise fun c c' => c.env.getTime ≤ c'.env.getTime) :
    RateLimited hash o calls ↔ (passingCalls hash o calls).Pairwise fun c c' =>
      c.pair = c'.pair → GOVERNANCE_UPDATE_MIN ≤ c'.env.getTime - c.env.getTime ∨
        c.env.getTime - (o.instanceOf c.pair.1 c.pair.2).nTime < GOVERNANCE_UPDATE_MIN := by
  have hsorted : (passingCalls hash o calls).Pairwise fun c c' =>
      c.env.getTime ≤ c'.env.getTime := htime.sublist sublist_passingCalls
  rw [RateLimited, acceptedCalls_eq, List.pairwise_filter]
  constructor
  · intro h
    apply (hsorted.and h).imp
    rintro c c' ⟨hle, h⟩ heq
    by_cases hc : GOVERNANCE_UPDATE_MIN ≤
        c.env.getTime - (o.instanceOf c.pair.1 c.pair.2).nTime
    · refine Or.inl (h (decide_eq_true hc) (decide_eq_true ?_) heq)
      rw [← heq]
      omega
    · exact Or.inr (Int.not_le.mp hc)
  · intro h
    apply h.imp
    intro c c' h hc _ heq
    have hc := of_decide_eq_true hc
    rcases h heq with h | h
    · exact h
    · omega

/-- A vote on the funding of object 5 by the first masternode. -/
def voteAt (nTime nVoteOutcome : ℤ) : VoteCall where
  env := { openEnv with getTime := nTime }
  vote := fundingVote 0 nVoteOutcome

theorem rateLimited_iff_hour :
    RateLimited voteTuple object5 [voteAt 1500000000 VOTE_OUTCOME_YES,
      voteAt 1500003600 VOTE_OUTCOME_NO] := by
  apply (rateLimited_iff (by simp [voteAt, openEnv])).mpr
  apply List.Pairwise.sublist sublist_passingCalls
  simp [voteAt, openEnv, GOVERNANCE_UPDATE_MIN]

/-- **Two votes of one second** are both accepted. -/
theorem not_rateLimited : ¬ RateLimited voteTuple object5
    [voteAt 1500000000 VOTE_OUTCOME_YES, voteAt 1500000000 VOTE_OUTCOME_NO] := by
  have hboth : acceptedCalls voteTuple object5 [voteAt 1500000000 VOTE_OUTCOME_YES,
      voteAt 1500000000 VOTE_OUTCOME_NO] =
      [voteAt 1500000000 VOTE_OUTCOME_YES, voteAt 1500000000 VOTE_OUTCOME_NO] := by
    have hfirst : (object5.processVote voteTuple (voteAt 1500000000 VOTE_OUTCOME_YES).env true
        (voteAt 1500000000 VOTE_OUTCOME_YES).vote).fOk = true := by decide +kernel
    have hsecond : ((object5.processVote voteTuple (voteAt 1500000000 VOTE_OUTCOME_YES).env true
        (voteAt 1500000000 VOTE_OUTCOME_YES).vote).govobj.processVote voteTuple
        (voteAt 1500000000 VOTE_OUTCOME_NO).env true
        (voteAt 1500000000 VOTE_OUTCOME_NO).vote).fOk = true := by decide +kernel
    rw [acceptedCalls, if_pos hfirst, acceptedCalls, if_pos hsecond, acceptedCalls]
  intro h
  rw [RateLimited, hboth] at h
  have h := List.rel_of_pairwise_cons h (List.mem_singleton.mpr rfl) rfl
  revert h
  decide

end CGovernanceObject

end Stonecoin
