/-
Governance votes (`governance-vote.h`, `governance-vote.cpp`) and their comparison.

`operator<` goes on to the next member only after `fResult` has been set to the equality of
the members just found to be less, so it never holds (`lt_eq_false`): to a `std::map` all
votes are the same.

What the rest of the node answers while a vote is processed is an environment.
-/
import Stonecoin.PaymentVotes

namespace Stonecoin

def VOTE_SIGNAL_NONE : ℤ := 0
def VOTE_SIGNAL_FUNDING : ℤ := 1
def VOTE_SIGNAL_VALID : ℤ := 2
def VOTE_SIGNAL_DELETE : ℤ := 3
def VOTE_SIGNAL_ENDORSED : ℤ := 4
def MAX_SUPPORTED_VOTE_SIGNAL : ℤ := VOTE_SIGNAL_ENDORSED

def VOTE_OUTCOME_NONE : ℤ := 0
def VOTE_OUTCOME_YES : ℤ := 1
def VOTE_OUTCOME_NO : ℤ := 2
def VOTE_OUTCOME_ABSTAIN : ℤ := 3

structure CGovernanceVote where
  nVoteSignal : ℤ
  vinMasternode : CTxIn
  nParentHash : UInt256
  nVoteOutcome : ℤ
  nTime : ℤ
  vchSig : List UInt8
deriving DecidableEq

/-! ### Comparison -/

/-- `memcmp` of two hashes, whose bytes are stored lowest first, is negative. -/
def uint256Lt (a b : UInt256) : Bool :=
  (List.range 32).map (fun i => a.extractLsb' (8 * i) 8) <
    (List.range 32).map fun i => b.extractLsb' (8 * i) 8

def COutPoint.lt (a b : COutPoint) : Bool :=
  uint256Lt a.hash b.hash || (a.hash = b.hash && a.n < b.n)

/-- `operator<` of `CTxIn` looks at the outpoint only. -/
def CTxIn.lt (a b : CTxIn) : Bool := a.prevout.lt b.prevout

theorem COutPoint.lt_irrefl (a : COutPoint) : a.lt a = false := by
  simp [COutPoint.lt, uint256Lt]

namespace CGovernanceVote

/-- `operator==`. -/
def eq (vote1 vote2 : CGovernanceVote) : Bool :=
  vote1.vinMasternode = vote2.vinMasternode ∧ vote1.nParentHash = vote2.nParentHash ∧
    vote1.nVoteOutcome = vote2.nVoteOutcome ∧ vote1.nVoteSignal = vote2.nVoteSignal ∧
    vote1.nTime = vote2.nTime

/-- `operator<`. -/
def lt (vote1 vote2 : CGovernanceVote) : Bool :=
  let fResult := vote1.vinMasternode.lt vote2.vinMasternode
  if !fResult then false
  else
    let fResult := decide (vote1.vinMasternode = vote2.vinMasternode)
    let fResult := fResult && uint256Lt vote1.nParentHash vote2.nParentHash
    if !fResult then false
    else
      let fResult := fResult && decide (vote1.nParentHash = vote2.nParentHash)
      let fResult := fResult && decide (vote1.nVoteOutcome < vote2.nVoteOutcome)
      if !fResult then false
      else
        let fResult := fResult && decide (vote1.nVoteOutcome = vote2.nVoteOutcome)
        let fResult := fResult && decide (vote1.nVoteSignal = vote2.nVoteSignal)
        if !fResult then false
        else
          let fResult := fResult && decide (vote1.nVoteSignal = vote2.nVoteSignal)
          fResult && decide (vote1.nTime < vote2.nTime)

theorem lt_eq_false (vote1 vote2 : CGovernanceVote) : vote1.lt vote2 = false := by
  unfold lt
  cases hlt : vote1.vinMasternode.lt vote2.vinMasternode with
  | false => rfl
  | true =>
    have hne : decide (vote1.vinMasternode = vote2.vinMasternode) = false := by
      rw [decide_eq_false_iff_not]
      intro he
      rw [he, CTxIn.lt, COutPoint.lt_irrefl] at hlt
      exact absurd hlt (by decide)
    simp [hne]

/-- `GetSignal`: the enumeration has no negative values. -/
def getSignal (vote : CGovernanceVote) : ℤ := vote.nVoteSignal % 4294967296

def getOutcome (vote : CGovernanceVote) : ℤ := vote.nVoteOutcome % 4294967296

/-- `GetHash`, which leaves the signature out. -/
def getHash {H : Type} (hash : CTxIn → UInt256 → ℤ → ℤ → ℤ → H) (vote : CGovernanceVote) : H :=
  hash vote.vinMasternode vote.nParentHash vote.nVoteSignal vote.nVoteOutcome vote.nTime

end CGovernanceVote

/-! ### The environment -/

/-- What the rest of the node answers to the governance code. -/
structure GovernanceEnv where
  getTime : ℤ
  getAdjustedTime : ℤ
  /-- `governance.GetMasternodeIndex`. -/
  getMasternodeIndex : COutPoint → ℤ
  /-- `mnodeman.Get` of an index. -/
  getMasternodeVin : ℤ → Option CTxIn
  /-- `mnodeman.GetMasternodeInfo`, with the public key; the masternode is known. -/
  getMasternodeInfo : COutPoint → Option CPubKey
  /-- `darkSendSigner.VerifyMessage` of the signature over the members of a vote. -/
  verifyMessage : CPubKey → List UInt8 → COutPoint → UInt256 → ℤ → ℤ → ℤ → Bool
  /-- `mnodeman.CountEnabled`. -/
  countEnabled : ℕ
  nGovernanceMinQuorum : ℤ

namespace GovernanceEnv

variable (env : GovernanceEnv)

/-- `mnodeman.Has`. -/
def has (vin : CTxIn) : Bool := (env.getMasternodeInfo vin.prevout).isSome

def isValid (vote : CGovernanceVote) : Bool :=
  if env.getTime + 60 * 60 < vote.nTime then false
  else if MAX_SUPPORTED_VOTE_SIGNAL < vote.nVoteSignal then false
  else if 3 < vote.nVoteOutcome then false
  else
    match env.getMasternodeInfo vote.vinMasternode.prevout with
    | none => false
    | some pubKeyMasternode =>
      env.verifyMessage pubKeyMasternode vote.vchSig vote.vinMasternode.prevout vote.nParentHash
        vote.nVoteSignal vote.nVoteOutcome vote.nTime

end GovernanceEnv

end Stonecoin
