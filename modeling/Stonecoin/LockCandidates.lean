/-
InstantSend votes, the locks they fill and the candidates for a lock (`instantx.h`,
`instantx.cpp`).

A candidate has one `COutPointLock` for each input of its request, and a lock holds at most
one vote of a masternode.  What the rest of the node answers is an environment.
-/
import Stonecoin.Coins
import Stonecoin.GovernanceVote
import Mathlib.Data.List.AList
import Mathlib.Data.List.Sort
import Mathlib.Data.Finset.Card

namespace Stonecoin

def INSTANTSEND_CONFIRMATIONS_REQUIRED : ℤ := 6
def MIN_INSTANTSEND_PROTO_VERSION : ℤ := 70206

abbrev CTxLockRequest := CTransaction

/-- `CTxLockVote`; the last two fields are not part of the message. -/
structure CTxLockVote where
  txHash : UInt256
  outpoint : COutPoint
  outpointMasternode : COutPoint
  vchMasternodeSignature : List UInt8
  nConfirmedHeight : ℤ
  nTimeCreated : ℤ
deriving DecidableEq

def CTxLockVote.getHash (hash : UInt256 → COutPoint → COutPoint → UInt256) (vote : CTxLockVote) :
    UInt256 :=
  hash vote.txHash vote.outpoint vote.outpointMasternode

/-- The entries of a `std::map` in the order of their keys. -/
def iterate {K V : Type} (lt : K → K → Bool) (m : AList fun _ : K => V) :
    List (Sigma fun _ : K => V) :=
  m.entries.insertionSort fun a b => lt b.1 a.1 = false

theorem mem_iterate {K V : Type} (lt : K → K → Bool) (m : AList fun _ : K => V)
    (e : Sigma fun _ : K => V) : e ∈ iterate lt m ↔ e ∈ m.entries :=
  List.mem_insertionSort _

theorem nodup_iterate {V : Type} (lt : UInt256 → UInt256 → Bool)
    (l : AList fun _ : UInt256 => V) : ((iterate lt l).map Sigma.fst).Nodup := by
  have hperm := (List.perm_insertionSort
    (fun a b : Sigma fun _ : UInt256 => V => lt b.1 a.1 = false) l.entries).map Sigma.fst
  exact hperm.nodup_iff.mpr l.keys_nodup

/-! ### The environment -/

/-- A call of `SyncTransaction` or `UpdatedBlockTip`. -/
inductive ChainEvent
  /-- A transaction, with the height of its block or -1. -/
  | syncTransaction (tx : CTransaction) (nHeightNew : ℤ)
  | updatedBlockTip (nHeight : ℤ)

/-- What the rest of the node answers to the InstantSend code. -/
structure InstantEnv where
  fLiteMode : Bool
  /-- `SPORK_2_INSTANTSEND_ENABLED` is active. -/
  isSporkActive : Bool
  fEnableInstantSend : Bool
  fLargeWorkForkFound : Bool
  fLargeWorkInvalidChainFound : Bool
  isMasternodeListSynced : Bool
  /-- `pfrom->nVersion`. -/
  nVersion : ℤ
  getTime : ℤ
  nInstantSendKeepLock : ℤ
  fMasterNode : Bool
  /-- `activeMasternode.vin.prevout`. -/
  activeMasternode : COutPoint
  activePubKeyMasternode : CPubKey
  /-- `darkSendSigner.SignMessage` of a transaction hash and an outpoint with the node's key. -/
  signMessage : UInt256 → COutPoint → Option (List UInt8)
  /-- `darkSendSigner.VerifyMessage` of a signature over these. -/
  verifyMessage : CPubKey → List UInt8 → UInt256 → COutPoint → Bool
  /-- `mnodeman.GetMasternodeInfo`, with the public key; the masternode is known. -/
  getMasternodeInfo : COutPoint → Option CPubKey
  /-- `mnodeman.GetMasternodeRank` at a height; -1 if the masternode has no rank. -/
  getMasternodeRank : COutPoint → ℤ → ℤ
  /-- `pcoinsTip->GetCoins`. -/
  getCoins : UInt256 → Option CCoins
  /-- `GetTransaction`, with the hash of the block. -/
  getTransaction : UInt256 → Option (CTransaction × UInt256)
  /-- `mapBlockIndex`, with the heights of the blocks. -/
  mapBlockIndex : UInt256 → Option ℤ
  /-- `chainActive.Height()`. -/
  nChainHeight : ℤ
  checkFinalTx : CTransaction → Bool
  isNormalPaymentScript : CScript → Bool
  /-- The value of `SPORK_5_INSTANTSEND_MAX_VALUE`. -/
  nInstantSendMaxValue : ℤ
  /-- `ResolveConflicts` where it deals with the mempool and the chain, once no input is locked
  by another transaction: its result, and what it makes the chain report meanwhile. -/
  resolveConflicts : CTxLockRequest → Bool × List ChainEvent
  /-- What `it2->second.HasMasternodeVoted` yields where `it2` is `end()`.  The behaviour is
  undefined, so this may be any answer. -/
  hasVotedAtEnd : Bool

namespace InstantEnv

variable (env : InstantEnv)

/-- `mnodeman.Has`. -/
def has (outpointMasternode : COutPoint) : Bool := (env.getMasternodeInfo outpointMasternode).isSome

def getUTXO (outpoint : COutPoint) : Option CCoins :=
  match env.getCoins outpoint.hash with
  | none => none
  | some coins => if coins.isAvailable outpoint.n then some coins else none

def getUTXOHeight (outpoint : COutPoint) : ℤ :=
  match env.getUTXO outpoint with
  | none => -1
  | some coins => coins.nHeight

/-- The transaction that created an outpoint, if it is in a known block, with the height. -/
def getOutpointCreated (outpoint : COutPoint) : Option (CTransaction × ℤ) :=
  match env.getTransaction outpoint.hash with
  | none => none
  | some (txOutpointCreated, nHashOutpointConfirmed) =>
    if nHashOutpointConfirmed = 0 then none
    else (env.mapBlockIndex nHashOutpointConfirmed).map fun nHeight => (txOutpointCreated, nHeight)

end InstantEnv

/-! ### Requests -/

namespace CTxLockRequest

def MIN_FEE : ℤ := COIN / 1000

def getMinFee (txLockRequest : CTxLockRequest) : ℤ :=
  max MIN_FEE (txLockRequest.vin.length * MIN_FEE)

/-- One input of `CTxLockRequest::IsValid`: its value, or `none` if the request fails. -/
def inputValue (env : InstantEnv) (fRequireUnspent : Bool) (outpoint : COutPoint) : Option ℤ :=
  let found : Option (ℤ × ℤ) :=
    match env.getUTXO outpoint with
    | some coins => (coins.vout[outpoint.n]?).map fun txout => (coins.nHeight, txout.nValue)
    | none =>
      if fRequireUnspent then none
      else
        match env.getOutpointCreated outpoint with
        | none => none
        | some (txOutpointCreated, nHeight) =>
          (txOutpointCreated.vout[outpoint.n]?).map fun txout => (nHeight, txout.nValue)
  match found with
  | none => none
  | some (nPrevoutHeight, nValue) =>
    if env.nChainHeight - nPrevoutHeight + 1 < INSTANTSEND_CONFIRMATIONS_REQUIRED - 1 then none
    else some nValue

/-- The inputs of `CTxLockRequest::IsValid`: the sum of their values. -/
def inputValues (env : InstantEnv) (fRequireUnspent : Bool) : List CTxIn → Option ℤ
  | [] => some 0
  | txin :: vin =>
    match inputValue env fRequireUnspent txin.prevout with
    | none => none
    | some nValue => (inputValues env fRequireUnspent vin).map (nValue + ·)

def isValid (env : InstantEnv) (fRequireUnspent : Bool) (txLockRequest : CTxLockRequest) : Bool :=
  if txLockRequest.vout.length < 1 then false
  else if !env.checkFinalTx txLockRequest then false
  else if txLockRequest.vout.any fun txout =>
      !env.isNormalPaymentScript txout.scriptPubKey && !isUnspendable txout.scriptPubKey then false
  else
    let nValueOut := (txLockRequest.vout.map CTxOut.nValue).sum
    match inputValues env fRequireUnspent txLockRequest.vin with
    | none => false
    | some nValueIn =>
      if env.nInstantSendMaxValue * COIN < nValueOut then false
      else if nValueIn - nValueOut < getMinFee txLockRequest then false
      else true

end CTxLockRequest

/-! ### Votes -/

/-- Votes and locks expire `nInstantSendKeepLock` blocks after the block of their transaction:
`IsExpired`. -/
def isExpiredAt (env : InstantEnv) (nHeight nConfirmedHeight : ℤ) : Bool :=
  nConfirmedHeight ≠ -1 && env.nInstantSendKeepLock < nHeight - nConfirmedHeight

namespace COutPointLock

def SIGNATURES_REQUIRED : ℕ := 6
def SIGNATURES_TOTAL : ℕ := 10

end COutPointLock

namespace CTxLockVote

variable (env : InstantEnv)

def checkSignature (vote : CTxLockVote) : Bool :=
  match env.getMasternodeInfo vote.outpointMasternode with
  | none => false
  | some pubKeyMasternode =>
    env.verifyMessage pubKeyMasternode vote.vchMasternodeSignature vote.txHash vote.outpoint

/-- The height of the block with the outpoint, also of a spent one. -/
def prevoutHeight (vote : CTxLockVote) : Option ℤ :=
  if env.getUTXOHeight vote.outpoint = -1 then
    (env.getOutpointCreated vote.outpoint).map Prod.snd
  else some (env.getUTXOHeight vote.outpoint)

def isValid (vote : CTxLockVote) : Bool :=
  if !env.has vote.outpointMasternode then false
  else
    match vote.prevoutHeight env with
    | none => false
    | some nPrevoutHeight =>
      let n := env.getMasternodeRank vote.outpointMasternode (nPrevoutHeight + 4)
      if n = -1 then false
      else if COutPointLock.SIGNATURES_TOTAL < n then false
      else vote.checkSignature env

def sign (txHash : UInt256) (outpoint : COutPoint) : Option CTxLockVote :=
  match env.signMessage txHash outpoint with
  | none => none
  | some vch =>
    if env.verifyMessage env.activePubKeyMasternode vch txHash outpoint then
      some ⟨txHash, outpoint, env.activeMasternode, vch, -1, env.getTime⟩
    else none

def isExpired (nHeight : ℤ) (vote : CTxLockVote) : Bool :=
  isExpiredAt env nHeight vote.nConfirmedHeight

variable {env}

theorem sign_eq_some {txHash : UInt256} {outpoint : COutPoint} {vote : CTxLockVote}
    (h : sign env txHash outpoint = some vote) :
    vote.txHash = txHash ∧ vote.outpoint = outpoint ∧
      vote.outpointMasternode = env.activeMasternode := by
  unfold sign at h
  rcases hs : env.signMessage txHash outpoint with - | vch
  · simp [hs] at h
  · rw [hs] at h
    dsimp only at h
    split_ifs at h
    have he := Option.some.inj h
    subst he
    exact ⟨rfl, rfl, rfl⟩

theorem isValid_of_checkSignature {vote : CTxLockVote}
    (hheight : env.getUTXOHeight vote.outpoint ≠ -1)
    (hrank : env.getMasternodeRank vote.outpointMasternode
      (env.getUTXOHeight vote.outpoint + 4) ≠ -1)
    (htop : ¬ (COutPointLock.SIGNATURES_TOTAL : ℤ) < env.getMasternodeRank vote.outpointMasternode
      (env.getUTXOHeight vote.outpoint + 4))
    (hsig : vote.checkSignature env = true) : vote.isValid env = true := by
  have hhas : env.has vote.outpointMasternode = true := by
    unfold checkSignature at hsig
    unfold InstantEnv.has
    rcases hi : env.getMasternodeInfo vote.outpointMasternode with - | pubKey
    · simp [hi] at hsig
    · rfl
  have hprev : vote.prevoutHeight env = some (env.getUTXOHeight vote.outpoint) := if_neg hheight
  simp [isValid, hhas, hprev, hrank, htop, hsig]

end CTxLockVote

/-! ### Locks -/

structure COutPointLock where
  outpoint : COutPoint
  mapMasternodeVotes : AList fun _ : COutPoint => CTxLockVote

namespace COutPointLock

def of (outpoint : COutPoint) : COutPointLock := ⟨outpoint, ∅⟩

def hasMasternodeVoted (lock : COutPointLock) (outpointMasternode : COutPoint) : Bool :=
  (lock.mapMasternodeVotes.lookup outpointMasternode).isSome

def addVote (lock : COutPointLock) (vote : CTxLockVote) : Option COutPointLock :=
  if lock.hasMasternodeVoted vote.outpointMasternode then none
  else some
    { lock with
      mapMasternodeVotes := lock.mapMasternodeVotes.insert vote.outpointMasternode vote }

def countVotes (lock : COutPointLock) : ℕ := lock.mapMasternodeVotes.entries.length

def voters (lock : COutPointLock) : Finset COutPoint := lock.mapMasternodeVotes.keys.toFinset

theorem mem_voters {lock : COutPointLock} {outpointMasternode : COutPoint} :
    outpointMasternode ∈ lock.voters ↔ lock.hasMasternodeVoted outpointMasternode = true := by
  rw [voters, List.mem_toFinset, ← AList.mem_keys, hasMasternodeVoted, AList.lookup_isSome]

theorem card_voters (lock : COutPointLock) : lock.voters.card = lock.countVotes := by
  rw [voters, List.toFinset_card_of_nodup lock.mapMasternodeVotes.keys_nodup]
  exact List.length_map _

def isReady (lock : COutPointLock) : Bool := SIGNATURES_REQUIRED ≤ lock.countVotes

end COutPointLock

/-! ### Candidates -/

structure CTxLockCandidate where
  nConfirmedHeight : ℤ
  txLockRequest : CTxLockRequest
  mapOutPointLocks : AList fun _ : COutPoint => COutPointLock

namespace CTxLockCandidate

def addOutPointLock (c : CTxLockCandidate) (outpoint : COutPoint) : CTxLockCandidate :=
  if (c.mapOutPointLocks.lookup outpoint).isSome then c
  else { c with mapOutPointLocks := c.mapOutPointLocks.insert outpoint (.of outpoint) }

/-- `CTxLockCandidate(txLockRequest)` with a lock for each input, as
`CreateTxLockCandidate` makes it. -/
def of (txLockRequest : CTxLockRequest) : CTxLockCandidate :=
  txLockRequest.vin.reverse.foldl (fun c txin => c.addOutPointLock txin.prevout)
    ⟨-1, txLockRequest, ∅⟩

def addVote (c : CTxLockCandidate) (vote : CTxLockVote) : Option CTxLockCandidate :=
  match c.mapOutPointLocks.lookup vote.outpoint with
  | none => none
  | some lock => (lock.addVote vote).map fun lock =>
      { c with mapOutPointLocks := c.mapOutPointLocks.insert vote.outpoint lock }

def isAllOutPointsReady (c : CTxLockCandidate) : Bool :=
  !c.mapOutPointLocks.entries.isEmpty && c.mapOutPointLocks.entries.all fun e => e.2.isReady

def hasMasternodeVoted (c : CTxLockCandidate) (outpoint outpointMasternode : COutPoint) : Bool :=
  match c.mapOutPointLocks.lookup outpoint with
  | none => false
  | some lock => lock.hasMasternodeVoted outpointMasternode

def isExpired (env : InstantEnv) (nHeight : ℤ) (c : CTxLockCandidate) : Bool :=
  isExpiredAt env nHeight c.nConfirmedHeight

variable {c c' : CTxLockCandidate} {vote : CTxLockVote} {o mn : COutPoint}

def Owns (c : CTxLockCandidate) (o : COutPoint) : Prop := o ∈ c.mapOutPointLocks

instance (c : CTxLockCandidate) (o : COutPoint) : Decidable (c.Owns o) :=
  inferInstanceAs (Decidable (o ∈ c.mapOutPointLocks))

theorem owns_iff : c.Owns o ↔ ∃ lock, c.mapOutPointLocks.lookup o = some lock := by
  rw [Owns, ← AList.lookup_isSome, Option.isSome_iff_exists]

def isReady (c : CTxLockCandidate) (o : COutPoint) : Bool :=
  match c.mapOutPointLocks.lookup o with
  | none => false
  | some lock => lock.isReady

theorem exists_voters_of_isReady (h : c.isReady o = true) :
    ∃ voters : Finset COutPoint, COutPointLock.SIGNATURES_REQUIRED ≤ voters.card ∧
      ∀ mn ∈ voters, c.hasMasternodeVoted o mn = true := by
  unfold isReady at h
  rcases hl : c.mapOutPointLocks.lookup o with - | lock
  · simp [hl] at h
  · rw [hl] at h
    refine ⟨lock.voters, ?_, fun mn hmn => ?_⟩
    · rw [COutPointLock.card_voters]
      exact of_decide_eq_true h
    · rw [hasMasternodeVoted, hl]
      exact COutPointLock.mem_voters.mp hmn

theorem addVote_eq_some (h : c.addVote vote = some c') :
    ∃ lock, c.mapOutPointLocks.lookup vote.outpoint = some lock ∧
      lock.hasMasternodeVoted vote.outpointMasternode = false ∧
      c' = { c with
        mapOutPointLocks := c.mapOutPointLocks.insert vote.outpoint
          { lock with
            mapMasternodeVotes := lock.mapMasternodeVotes.insert vote.outpointMasternode vote } } := by
  unfold addVote at h
  rcases hl : c.mapOutPointLocks.lookup vote.outpoint with - | lock
  · simp [hl] at h
  · refine ⟨lock, rfl, ?_⟩
    rw [hl] at h
    simp only [COutPointLock.addVote] at h
    split_ifs at h with hvoted
    · simp at h
    · exact ⟨by simpa using hvoted, (Option.some.inj h).symm⟩

theorem hasMasternodeVoted_addVote (h : c.addVote vote = some c') :
    c'.hasMasternodeVoted o mn = true ↔
      (o = vote.outpoint ∧ mn = vote.outpointMasternode) ∨ c.hasMasternodeVoted o mn = true := by
  obtain ⟨lock, hl, hnew, rfl⟩ := addVote_eq_some h
  unfold hasMasternodeVoted
  rcases eq_or_ne o vote.outpoint with rfl | ho
  · rw [AList.lookup_insert, hl]
    show ((lock.mapMasternodeVotes.insert _ vote).lookup mn).isSome = true ↔
      _ ∨ (lock.mapMasternodeVotes.lookup mn).isSome = true
    rcases eq_or_ne mn vote.outpointMasternode with rfl | hmn
    · simp
    · rw [AList.lookup_insert_ne hmn]
      simp [hmn]
  · rw [AList.lookup_insert_ne ho]
    simp [ho]

theorem hasMasternodeVoted_of_addVote_eq_none (h : c.addVote vote = none)
    (ho : c.Owns vote.outpoint) :
    c.hasMasternodeVoted vote.outpoint vote.outpointMasternode = true := by
  obtain ⟨lock, hl⟩ := owns_iff.mp ho
  unfold addVote COutPointLock.addVote at h
  rw [hl] at h
  unfold hasMasternodeVoted
  rw [hl]
  by_contra hvoted
  simp [hvoted] at h

theorem owns_addVote (h : c.addVote vote = some c') : c'.Owns o ↔ c.Owns o := by
  obtain ⟨lock, hl, -, rfl⟩ := addVote_eq_some h
  show o ∈ c.mapOutPointLocks.insert _ _ ↔ o ∈ c.mapOutPointLocks
  rw [AList.mem_insert]
  constructor
  · rintro (rfl | ho)
    · exact owns_iff.mpr ⟨lock, hl⟩
    · exact ho
  · exact Or.inr

/-! ### New candidates -/

theorem lookup_addOutPointLock (c : CTxLockCandidate) (outpoint : COutPoint) :
    (c.addOutPointLock outpoint).mapOutPointLocks.lookup o =
      if o = outpoint then some ((c.mapOutPointLocks.lookup o).getD (.of o))
      else c.mapOutPointLocks.lookup o := by
  unfold addOutPointLock
  rcases hl : c.mapOutPointLocks.lookup outpoint with - | lock
  · show (c.mapOutPointLocks.insert outpoint (.of outpoint)).lookup o = _
    rcases eq_or_ne o outpoint with rfl | ho
    · rw [AList.lookup_insert, if_pos rfl, hl]
      rfl
    · rw [AList.lookup_insert_ne ho, if_neg ho]
  · show c.mapOutPointLocks.lookup o = _
    rcases eq_or_ne o outpoint with rfl | ho
    · rw [if_pos rfl, hl]
      rfl
    · rw [if_neg ho]

theorem lookup_of (txLockRequest : CTxLockRequest) :
    (of txLockRequest).mapOutPointLocks.lookup o =
      if ∃ txin ∈ txLockRequest.vin, txin.prevout = o then some (.of o) else none := by
  have hloop : ∀ (vin : List CTxIn) (c : CTxLockCandidate),
      (c.mapOutPointLocks.lookup o = none ∨ c.mapOutPointLocks.lookup o = some (.of o)) →
      (vin.foldl (fun c txin => c.addOutPointLock txin.prevout) c).mapOutPointLocks.lookup o =
        if ∃ txin ∈ vin, txin.prevout = o then some (.of o) else c.mapOutPointLocks.lookup o := by
    intro vin
    induction vin with
    | nil => intro c _; simp
    | cons txin vin ih =>
      intro c hc
      have hone : (c.addOutPointLock txin.prevout).mapOutPointLocks.lookup o =
          if o = txin.prevout then some (.of o) else c.mapOutPointLocks.lookup o := by
        rw [lookup_addOutPointLock]
        split_ifs
        · rcases hc with hc | hc <;> rw [hc] <;> rfl
        · rfl
      rw [List.foldl_cons, ih]
      · rw [hone]
        rcases eq_or_ne o txin.prevout with rfl | ho
        · simp
        · simp [ho, Ne.symm ho]
      · rw [hone]
        split_ifs
        · exact Or.inr rfl
        · exact hc
  rw [of, hloop _ _ (Or.inl rfl)]
  simp

theorem txLockRequest_of (txLockRequest : CTxLockRequest) :
    (of txLockRequest).txLockRequest = txLockRequest := by
  have hloop : ∀ (vin : List CTxIn) (c : CTxLockCandidate),
      (vin.foldl (fun c txin => c.addOutPointLock txin.prevout) c).txLockRequest =
        c.txLockRequest := by
    intro vin
    induction vin with
    | nil => exact fun _ => rfl
    | cons txin vin ih =>
      intro c
      rw [List.foldl_cons, ih]
      unfold addOutPointLock
      split_ifs <;> rfl
  exact hloop _ _

theorem owns_of_request {txLockRequest : CTxLockRequest} :
    (of txLockRequest).Owns o ↔ ∃ txin ∈ txLockRequest.vin, txin.prevout = o := by
  rw [owns_iff, lookup_of]
  split_ifs with h
  · simp [h]
  · simp [h]

theorem hasMasternodeVoted_of (txLockRequest : CTxLockRequest) :
    (of txLockRequest).hasMasternodeVoted o mn = false := by
  unfold hasMasternodeVoted
  rw [lookup_of]
  split_ifs <;> rfl

/-! ### Quorums -/

/-- A candidate as it is stored under a hash: its locks are for the inputs of its request, and
the votes are where they belong. -/
structure Ok (txHash : UInt256) (c : CTxLockCandidate) : Prop where
  hash : c.txLockRequest.hash = txHash
  owns : ∀ o, c.Owns o ↔ ∃ txin ∈ c.txLockRequest.vin, txin.prevout = o
  votes : ∀ o lock mn vote, c.mapOutPointLocks.lookup o = some lock →
    lock.mapMasternodeVotes.lookup mn = some vote →
      vote.txHash = txHash ∧ vote.outpoint = o ∧ vote.outpointMasternode = mn

theorem ok_of (txLockRequest : CTxLockRequest) : Ok txLockRequest.hash (of txLockRequest) where
  hash := by rw [txLockRequest_of]
  owns o := by rw [txLockRequest_of, owns_of_request]
  votes o lock mn vote hlock hvote := by
    rw [lookup_of] at hlock
    split_ifs at hlock
    rw [← Option.some.inj hlock] at hvote
    exact absurd hvote (by simp [COutPointLock.of])

theorem Ok.addVote (h : c.Ok vote.txHash) (hadd : c.addVote vote = some c') :
    c'.Ok vote.txHash := by
  have howns := fun o => owns_addVote (o := o) hadd
  obtain ⟨lock, hl, -, rfl⟩ := addVote_eq_some hadd
  refine ⟨h.hash, fun o => (howns o).trans (h.owns o), fun o lock' mn vote' hlock' hvote' => ?_⟩
  rcases eq_or_ne o vote.outpoint with rfl | ho
  · rw [AList.lookup_insert, Option.some.injEq] at hlock'
    subst hlock'
    rcases eq_or_ne mn vote.outpointMasternode with rfl | hmn
    · rw [AList.lookup_insert, Option.some.injEq] at hvote'
      subst hvote'
      exact ⟨rfl, rfl, rfl⟩
    · rw [AList.lookup_insert_ne hmn] at hvote'
      exact h.votes _ lock mn vote' hl hvote'
  · rw [AList.lookup_insert_ne ho] at hlock'
    exact h.votes o lock' mn vote' hlock' hvote'

def AllReady (c : CTxLockCandidate) : Prop :=
  ∀ o lock, c.mapOutPointLocks.lookup o = some lock →
    COutPointLock.SIGNATURES_REQUIRED ≤ lock.countVotes

theorem allReady_of_isAllOutPointsReady (h : c.isAllOutPointsReady = true) : c.AllReady := by
  intro o lock hl
  have hall := List.all_eq_true.mp (Bool.and_eq_true_iff.mp h).2 ⟨o, lock⟩ (AList.mem_lookup_iff.mp hl)
  exact of_decide_eq_true hall

theorem AllReady.addVote (h : c.AllReady) (hadd : c.addVote vote = some c') : c'.AllReady := by
  obtain ⟨lock, hl, -, rfl⟩ := addVote_eq_some hadd
  intro o lock' hlock'
  rcases eq_or_ne o vote.outpoint with rfl | ho
  · rw [AList.lookup_insert, Option.some.injEq] at hlock'
    subst hlock'
    refine (h _ lock hl).trans ?_
    rw [← COutPointLock.card_voters, ← COutPointLock.card_voters]
    apply Finset.card_le_card
    intro mn hmn
    rw [COutPointLock.mem_voters, COutPointLock.hasMasternodeVoted] at hmn ⊢
    rcases eq_or_ne mn vote.outpointMasternode with rfl | hne
    · rw [AList.lookup_insert]
      rfl
    · rw [AList.lookup_insert_ne hne]
      exact hmn
  · rw [AList.lookup_insert_ne ho] at hlock'
    exact h o lock' hlock'

/-- How a candidate changes: it keeps its outpoints, its votes and a quorum. -/
structure Evolves (c c' : CTxLockCandidate) : Prop where
  owns : ∀ o, c'.Owns o ↔ c.Owns o
  voted : ∀ o mn, c.hasMasternodeVoted o mn = true → c'.hasMasternodeVoted o mn = true
  ready : c.AllReady → c'.AllReady

theorem Evolves.refl (c : CTxLockCandidate) : Evolves c c :=
  ⟨fun _ => Iff.rfl, fun _ _ => id, id⟩

theorem Evolves.trans {c'' : CTxLockCandidate} (h : Evolves c c') (h' : Evolves c' c'') :
    Evolves c c'' :=
  ⟨fun o => (h'.owns o).trans (h.owns o), fun o mn hv => h'.voted o mn (h.voted o mn hv),
    fun hready => h'.ready (h.ready hready)⟩

theorem evolves_addVote (hadd : c.addVote vote = some c') : Evolves c c' :=
  ⟨fun _ => owns_addVote hadd, fun _ _ hv => (hasMasternodeVoted_addVote hadd).mpr (.inr hv),
    fun h => h.addVote hadd⟩

end CTxLockCandidate

end Stonecoin
