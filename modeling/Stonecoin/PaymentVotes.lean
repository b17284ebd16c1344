/-
Masternode payment votes (`masternode-payments.h`, `masternode-payments.cpp`).

What the rest of the node answers while a message is processed (the masternode list, the
signatures, the chain, the sporks) is an environment that comes with the message.  Vote
hashes are of any type, and `hash` stands for `GetHash`, which looks at payee, height and
outpoint only.  Heights are integers.  Logging, peer scores and requests to peers are left
out, and so are the two messages that only read the votes.
-/
import Stonecoin.Transaction
import Mathlib.Data.List.AList

namespace Stonecoin

def MNPAYMENTS_SIGNATURES_REQUIRED : ℕ := 6
def MNPAYMENTS_SIGNATURES_TOTAL : ℕ := 10
def MIN_MASTERNODE_PAYMENT_PROTO_VERSION_1 : ℤ := 70206
def MIN_MASTERNODE_PAYMENT_PROTO_VERSION_2 : ℤ := 70206

abbrev CPubKey := List UInt8

structure CMasternodePaymentVote where
  vinMasternode : COutPoint
  nBlockHeight : ℤ
  payee : CScript
  vchSig : List UInt8
deriving DecidableEq

def CMasternodePaymentVote.isVerified (vote : CMasternodePaymentVote) : Bool :=
  !vote.vchSig.isEmpty

def CMasternodePaymentVote.markAsNotVerified (vote : CMasternodePaymentVote) :
    CMasternodePaymentVote :=
  { vote with vchSig := [] }

structure CMasternodePayee (H : Type) where
  scriptPubKey : CScript
  vecVoteHashes : List H
deriving DecidableEq

structure CMasternodeBlockPayees (H : Type) where
  nBlockHeight : ℤ
  vecPayees : List (CMasternodePayee H)
deriving DecidableEq

/-- `CMasternodePayments`; of `pCurrentBlockIndex` only the height. -/
structure CMasternodePayments (H : Type) where
  pCurrentBlockIndex : Option ℤ
  mapMasternodePaymentVotes : AList fun _ : H => CMasternodePaymentVote
  mapMasternodeBlocks : AList fun _ : ℤ => CMasternodeBlockPayees H
  mapMasternodesLastVote : AList fun _ : COutPoint => ℤ

/-- What the rest of the node answers. -/
structure MasternodeEnv where
  isMasternodeListSynced : Bool
  fLiteMode : Bool
  fMasterNode : Bool
  /-- `SPORK_10_MASTERNODE_PAY_UPDATED_NODES` is active. -/
  spork10 : Bool
  /-- `mnodeman.size()`. -/
  size : ℕ
  /-- `mnodeman.Find`, with the protocol version. -/
  find : COutPoint → Option ℤ
  /-- `mnodeman.GetMasternodeRank` at a height, for a minimal protocol. -/
  getMasternodeRank : COutPoint → ℤ → ℤ → ℤ
  /-- `mnodeman.GetMasternodeInfo`, with the public key. -/
  getMasternodeInfo : COutPoint → Option CPubKey
  /-- `darkSendSigner.VerifyMessage` of the signature over outpoint, height and payee. -/
  verifyMessage : CPubKey → List UInt8 → COutPoint → ℤ → CScript → Bool
  /-- `RecoverCompact` takes signatures of 65 bytes only. -/
  verifyMessage_nil : ∀ key out nBlockHeight payee,
    verifyMessage key [] out nBlockHeight payee = false
  /-- `GetBlockHash` succeeds at a height. -/
  getBlockHash : ℤ → Bool
  /-- `activeMasternode.vin`. -/
  activeMasternode : COutPoint
  /-- The script of `mnodeman.GetNextMasternodeInQueueForPayment`. -/
  getNextMasternodeInQueueForPayment : ℤ → Option CScript
  /-- `activeMasternode.pubKeyMasternode`. -/
  pubKeyMasternode : CPubKey
  /-- `darkSendSigner.SignMessage` with the key of the active masternode. -/
  signMessage : COutPoint → ℤ → CScript → Option (List UInt8)

namespace MasternodeEnv

variable (env : MasternodeEnv)

def getMinMasternodePaymentsProto : ℤ :=
  if env.spork10 then MIN_MASTERNODE_PAYMENT_PROTO_VERSION_2
  else MIN_MASTERNODE_PAYMENT_PROTO_VERSION_1

/-- `GetStorageLimit`, with `nStorageCoeff` 1.25 and `nMinBlocksToStore` 5000. -/
def getStorageLimit : ℤ := max (env.size * 5 / 4 : ℕ) 5000

def isValid (vote : CMasternodePaymentVote) (nValidationHeight : ℤ) : Bool :=
  match env.find vote.vinMasternode with
  | none => false
  | some nProtocolVersion =>
    let nMinRequiredProtocol :=
      if nValidationHeight ≤ vote.nBlockHeight then env.getMinMasternodePaymentsProto
      else MIN_MASTERNODE_PAYMENT_PROTO_VERSION_1
    if nProtocolVersion < nMinRequiredProtocol then false
    -- old votes are not checked for the rank by regular clients
    else if !env.fMasterNode ∧ vote.nBlockHeight < nValidationHeight then true
    else
      let nRank :=
        env.getMasternodeRank vote.vinMasternode (vote.nBlockHeight - 101) nMinRequiredProtocol
      if nRank = -1 then false else nRank ≤ MNPAYMENTS_SIGNATURES_TOTAL

def checkSignature (pubKeyMasternode : CPubKey) (vote : CMasternodePaymentVote) : Bool :=
  env.verifyMessage pubKeyMasternode vote.vchSig vote.vinMasternode vote.nBlockHeight vote.payee

def sign (vinMasternode : COutPoint) (nBlockHeight : ℤ) (payee : CScript) :
    Option CMasternodePaymentVote :=
  match env.signMessage vinMasternode nBlockHeight payee with
  | none => none
  | some vchSig =>
    let vote := ⟨vinMasternode, nBlockHeight, payee, vchSig⟩
    if !env.checkSignature env.pubKeyMasternode vote then none else some vote

variable {env}

theorem isVerified_of_checkSignature {key : CPubKey} {vote : CMasternodePaymentVote}
    (h : env.checkSignature key vote = true) : vote.isVerified = true := by
  cases hsig : vote.vchSig with
  | nil =>
    rw [checkSignature, hsig, env.verifyMessage_nil] at h
    exact absurd h (by decide)
  | cons b bs => rw [CMasternodePaymentVote.isVerified, hsig]; rfl

theorem sign_spec {out : COutPoint} {nBlockHeight : ℤ} {payee : CScript}
    {vote : CMasternodePaymentVote} (h : env.sign out nBlockHeight payee = some vote) :
    env.checkSignature env.pubKeyMasternode vote = true ∧ vote.nBlockHeight = nBlockHeight := by
  unfold sign at h
  cases hsig : env.signMessage out nBlockHeight payee with
  | none => rw [hsig] at h; exact absurd h (by simp)
  | some vchSig =>
    simp only [hsig, Bool.not_eq_true'] at h
    split_ifs at h with hcheck
    obtain rfl := Option.some.inj h
    exact ⟨by simpa using hcheck, rfl⟩

end MasternodeEnv

variable {H : Type}

/-! ### Payees of a block -/

def CMasternodePayee.getVoteCount (p : CMasternodePayee H) : ℕ := p.vecVoteHashes.length

def addPayeeLoop (payee : CScript) (nHash : H) : List (CMasternodePayee H) →
    List (CMasternodePayee H)
  | [] => [⟨payee, [nHash]⟩]
  | p :: ps =>
    if p.scriptPubKey = payee then ⟨p.scriptPubKey, p.vecVoteHashes ++ [nHash]⟩ :: ps
    else p :: addPayeeLoop payee nHash ps

def CMasternodeBlockPayees.addPayee (b : CMasternodeBlockPayees H) (payee : CScript) (nHash : H) :
    CMasternodeBlockPayees H :=
  { b with vecPayees := addPayeeLoop payee nHash b.vecPayees }

theorem addPayeeLoop_scriptPubKey (payee : CScript) (nHash : H) :
    ∀ ps : List (CMasternodePayee H),
      (addPayeeLoop payee nHash ps).map (·.scriptPubKey)
        = if payee ∈ ps.map (·.scriptPubKey) then ps.map (·.scriptPubKey)
          else ps.map (·.scriptPubKey) ++ [payee]
  | [] => rfl
  | p :: ps => by
    have ih := addPayeeLoop_scriptPubKey payee nHash ps
    rcases eq_or_ne p.scriptPubKey payee with hp | hp
    · simp [addPayeeLoop, hp]
    · rw [addPayeeLoop, if_neg hp, List.map_cons, ih]
      simp only [List.map_cons, List.mem_cons, hp.symm, false_or]
      split_ifs <;> rfl

theorem addPayeeLoop_hashes {f : CScript → List H} (payee : CScript) (nHash : H) :
    ∀ {ps : List (CMasternodePayee H)}, (ps.map (·.scriptPubKey)).Nodup →
      (∀ p ∈ ps, p.vecVoteHashes = f p.scriptPubKey) →
      (payee ∉ ps.map (·.scriptPubKey) → f payee = []) →
      ∀ p ∈ addPayeeLoop payee nHash ps, p.vecVoteHashes =
        if p.scriptPubKey = payee then f payee ++ [nHash] else f p.scriptPubKey
  | [], _, _, hnew, p, hp => by
    obtain rfl : p = ⟨payee, [nHash]⟩ := by simpa [addPayeeLoop] using hp
    simp [hnew (by simp)]
  | q :: ps, hnd, hf, hnew, p, hp => by
    obtain ⟨hq, hnd'⟩ := List.nodup_cons.mp hnd
    rw [addPayeeLoop] at hp
    split_ifs at hp with hpay
    · rcases List.mem_cons.mp hp with rfl | hp
      · simp [hpay, hf q (by simp)]
      · -- no other payee has the script
        have hne : p.scriptPubKey ≠ payee := by
          rintro he
          exact hq (List.mem_map.mpr ⟨p, hp, he.trans hpay.symm⟩)
        rw [if_neg hne, hf p (List.mem_cons_of_mem _ hp)]
    · rcases List.mem_cons.mp hp with rfl | hp
      · rw [if_neg hpay, hf p (by simp)]
      · apply addPayeeLoop_hashes payee nHash hnd' (fun r hr => hf r (List.mem_cons_of_mem _ hr))
        · intro hmem
          apply hnew
          simpa [Ne.symm hpay] using hmem
        · exact hp

/-! ### The votes -/

variable [DecidableEq H]

namespace CMasternodePayments

/-- A node that has just started. -/
def empty : CMasternodePayments H := ⟨none, ∅, ∅, ∅⟩

variable (hash : CScript → ℤ → COutPoint → H)

def getHash (vote : CMasternodePaymentVote) : H :=
  hash vote.payee vote.nBlockHeight vote.vinMasternode

def hasVerifiedPaymentVote (m : CMasternodePayments H) (nHash : H) : Bool :=
  match m.mapMasternodePaymentVotes.lookup nHash with
  | none => false
  | some vote => vote.isVerified

def setLastVote (m : CMasternodePayments H) (outMasternode : COutPoint) (nBlockHeight : ℤ) :
    CMasternodePayments H :=
  { m with mapMasternodesLastVote := m.mapMasternodesLastVote.insert outMasternode nBlockHeight }

def canVote (m : CMasternodePayments H) (outMasternode : COutPoint) (nBlockHeight : ℤ) :
    Bool × CMasternodePayments H :=
  if m.mapMasternodesLastVote.lookup outMasternode = some nBlockHeight then (false, m)
  else (true, m.setLastVote outMasternode nBlockHeight)

/-- The vote is put into both maps. -/
def addVote (m : CMasternodePayments H) (vote : CMasternodePaymentVote) : CMasternodePayments H :=
  let blockPayees :=
    (m.mapMasternodeBlocks.lookup vote.nBlockHeight).getD ⟨vote.nBlockHeight, []⟩
  { m with
    mapMasternodePaymentVotes := m.mapMasternodePaymentVotes.insert (getHash hash vote) vote
    mapMasternodeBlocks := m.mapMasternodeBlocks.insert vote.nBlockHeight
      (blockPayees.addPayee vote.payee (getHash hash vote)) }

def addPaymentVote (env : MasternodeEnv) (m : CMasternodePayments H)
    (vote : CMasternodePaymentVote) : Bool × CMasternodePayments H :=
  if !env.getBlockHash (vote.nBlockHeight - 101) then (false, m)
  else if m.hasVerifiedPaymentVote (getHash hash vote) then (false, m)
  else (true, m.addVote hash vote)

/-- The vote is kept so that it is not processed again, first without its signature. -/
def markSeen (m : CMasternodePayments H) (vote : CMasternodePaymentVote) : CMasternodePayments H :=
  { m with
    mapMasternodePaymentVotes :=
      m.mapMasternodePaymentVotes.insert (getHash hash vote) vote.markAsNotVerified }

def processMessage (env : MasternodeEnv) (m : CMasternodePayments H) (nVersion : ℤ)
    (vote : CMasternodePaymentVote) : CMasternodePayments H :=
  if !env.isMasternodeListSynced then m
  else if env.fLiteMode then m
  else if nVersion < env.getMinMasternodePaymentsProto then m
  else
    match m.pCurrentBlockIndex with
    | none => m
    | some nHeight =>
      if (m.mapMasternodePaymentVotes.lookup (getHash hash vote)).isSome then m
      else
        let m := m.markSeen hash vote
        let nFirstBlock := nHeight - env.getStorageLimit
        if vote.nBlockHeight < nFirstBlock ∨ nHeight + 20 < vote.nBlockHeight then m
        else if !env.isValid vote nHeight then m
        else
          match m.canVote vote.vinMasternode vote.nBlockHeight with
          | (false, m) => m
          | (true, m) =>
            match env.getMasternodeInfo vote.vinMasternode with
            | none => m
            | some pubKeyMasternode =>
              if !env.checkSignature pubKeyMasternode vote then m
              else (m.addPaymentVote hash env vote).2

/-- One vote of the loop in `CheckAndRemove`. -/
def removeOld (nHeight nLimit : ℤ) (m : CMasternodePayments H)
    (e : Sigma fun _ : H => CMasternodePaymentVote) : CMasternodePayments H :=
  if nLimit < nHeight - e.2.nBlockHeight then
    { m with
      mapMasternodePaymentVotes := m.mapMasternodePaymentVotes.erase e.1
      mapMasternodeBlocks := m.mapMasternodeBlocks.erase e.2.nBlockHeight }
  else m

def checkAndRemove (env : MasternodeEnv) (m : CMasternodePayments H) : CMasternodePayments H :=
  match m.pCurrentBlockIndex with
  | none => m
  | some nHeight =>
    m.mapMasternodePaymentVotes.entries.foldl (removeOld nHeight env.getStorageLimit) m

def voteNew (env : MasternodeEnv) (nBlockHeight : ℤ) : Option CMasternodePaymentVote :=
  if env.fLiteMode ∨ !env.fMasterNode then none
  else if !env.isMasternodeListSynced then none
  else
    let nRank := env.getMasternodeRank env.activeMasternode (nBlockHeight - 101)
      env.getMinMasternodePaymentsProto
    if nRank = -1 ∨ MNPAYMENTS_SIGNATURES_TOTAL < nRank then none
    else
      match env.getNextMasternodeInQueueForPayment nBlockHeight with
      | none => none
      | some payee => env.sign env.activeMasternode nBlockHeight payee

def processBlock (env : MasternodeEnv) (m : CMasternodePayments H) (nBlockHeight : ℤ) :
    CMasternodePayments H :=
  match voteNew env nBlockHeight with
  | none => m
  | some vote => (m.addPaymentVote hash env vote).2

def updatedBlockTip (env : MasternodeEnv) (m : CMasternodePayments H) (nHeight : ℤ) :
    CMasternodePayments H :=
  processBlock hash env { m with pCurrentBlockIndex := some nHeight } (nHeight + 10)

/-! ### What a message can do -/

variable {hash} {env : MasternodeEnv} {m : CMasternodePayments H} {nVersion : ℤ}
  {vote : CMasternodePaymentVote}

/-- The message is read, and no vote with its hash has been seen. -/
def Heard (hash : CScript → ℤ → COutPoint → H) (env : MasternodeEnv) (m : CMasternodePayments H)
    (nVersion : ℤ) (vote : CMasternodePaymentVote) : Prop :=
  env.isMasternodeListSynced = true ∧ env.fLiteMode = false ∧
    env.getMinMasternodePaymentsProto ≤ nVersion ∧ m.pCurrentBlockIndex.isSome = true ∧
    m.mapMasternodePaymentVotes.lookup (getHash hash vote) = none

/-- Its height is in range, and the masternode may vote. -/
def Eligible (env : MasternodeEnv) (m : CMasternodePayments H) (vote : CMasternodePaymentVote) :
    Prop :=
  ∀ nHeight, m.pCurrentBlockIndex = some nHeight →
    nHeight - env.getStorageLimit ≤ vote.nBlockHeight ∧ vote.nBlockHeight ≤ nHeight + 20 ∧
      env.isValid vote nHeight = true

def Signed (env : MasternodeEnv) (vote : CMasternodePaymentVote) : Prop :=
  ∃ pubKeyMasternode, env.getMasternodeInfo vote.vinMasternode = some pubKeyMasternode ∧
    env.checkSignature pubKeyMasternode vote = true

/-- Nor is the block unknown that its masternodes are ranked by. -/
def Accepted (env : MasternodeEnv) (vote : CMasternodePaymentVote) : Prop :=
  Signed env vote ∧ env.getBlockHash (vote.nBlockHeight - 101) = true

def lastVote (m : CMasternodePayments H) (outMasternode : COutPoint) : Option ℤ :=
  m.mapMasternodesLastVote.lookup outMasternode

theorem processMessage_of_not_heard (h : ¬ Heard hash env m nVersion vote) :
    processMessage hash env m nVersion vote = m := by
  unfold processMessage
  cases hsync : env.isMasternodeListSynced with
  | false => rfl
  | true =>
    cases hlite : env.fLiteMode with
    | true => rfl
    | false =>
      rcases lt_or_ge nVersion env.getMinMasternodePaymentsProto with hver | hver
      · simp [hver]
      · cases htip : m.pCurrentBlockIndex with
        | none => simp
        | some nHeight =>
          cases hseen : m.mapMasternodePaymentVotes.lookup (getHash hash vote) with
          | some v => simp
          | none => exact absurd ⟨hsync, hlite, hver, by rw [htip]; rfl, hseen⟩ h

theorem processMessage_of_heard {nHeight : ℤ} (htip : m.pCurrentBlockIndex = some nHeight)
    (h : Heard hash env m nVersion vote) :
    processMessage hash env m nVersion vote =
      (if vote.nBlockHeight < nHeight - env.getStorageLimit ∨ nHeight + 20 < vote.nBlockHeight then
        m.markSeen hash vote
      else if !env.isValid vote nHeight then m.markSeen hash vote
      else
        match (m.markSeen hash vote).canVote vote.vinMasternode vote.nBlockHeight with
        | (false, m) => m
        | (true, m) =>
          match env.getMasternodeInfo vote.vinMasternode with
          | none => m
          | some pubKeyMasternode =>
            if !env.checkSignature pubKeyMasternode vote then m
            else (m.addPaymentVote hash env vote).2) := by
  obtain ⟨hsync, hlite, hver, -, hseen⟩ := h
  unfold processMessage
  rw [hsync, hlite, htip, hseen, if_neg (by decide), if_neg (by decide), if_neg (by omega)]
  rfl

theorem processMessage_of_not_eligible (h : Heard hash env m nVersion vote)
    (he : ¬ Eligible env m vote) :
    processMessage hash env m nVersion vote = m.markSeen hash vote := by
  obtain ⟨nHeight, htip⟩ := Option.isSome_iff_exists.mp h.2.2.2.1
  rw [processMessage_of_heard htip h]
  split_ifs with hrange hvalid
  · rfl
  · rfl
  · refine absurd (fun n hn => ?_) he
    obtain rfl : nHeight = n := Option.some.inj (htip.symm.trans hn)
    exact ⟨by omega, by omega, by simpa using hvalid⟩

theorem processMessage_of_eligible (h : Heard hash env m nVersion vote)
    (he : Eligible env m vote) :
    processMessage hash env m nVersion vote =
      (match (m.markSeen hash vote).canVote vote.vinMasternode vote.nBlockHeight with
      | (false, m) => m
      | (true, m) =>
        match env.getMasternodeInfo vote.vinMasternode with
        | none => m
        | some pubKeyMasternode =>
          if !env.checkSignature pubKeyMasternode vote then m
          else (m.addPaymentVote hash env vote).2) := by
  obtain ⟨nHeight, htip⟩ := Option.isSome_iff_exists.mp h.2.2.2.1
  obtain ⟨hlow, hhigh, hvalid⟩ := he nHeight htip
  rw [processMessage_of_heard htip h, if_neg (by omega), hvalid, if_neg (by decide)]

theorem processMessage_of_voted (h : Heard hash env m nVersion vote) (he : Eligible env m vote)
    (hv : m.lastVote vote.vinMasternode = some vote.nBlockHeight) :
    processMessage hash env m nVersion vote = m.markSeen hash vote := by
  have hcan : (m.markSeen hash vote).canVote vote.vinMasternode vote.nBlockHeight
      = (false, m.markSeen hash vote) := if_pos hv
  rw [processMessage_of_eligible h he, hcan]

theorem canVote_of_ne (hv : m.lastVote vote.vinMasternode ≠ some vote.nBlockHeight) :
    (m.markSeen hash vote).canVote vote.vinMasternode vote.nBlockHeight
      = (true, (m.markSeen hash vote).setLastVote vote.vinMasternode vote.nBlockHeight) :=
  if_neg hv

theorem hasVerifiedPaymentVote_markSeen (outMasternode : COutPoint) (nBlockHeight : ℤ) :
    ((m.markSeen hash vote).setLastVote outMasternode nBlockHeight).hasVerifiedPaymentVote
      (getHash hash vote) = false := by
  show (match (m.mapMasternodePaymentVotes.insert (getHash hash vote)
    vote.markAsNotVerified).lookup (getHash hash vote) with
    | none => false
    | some vote => vote.isVerified) = false
  rw [AList.lookup_insert]
  rfl

theorem processMessage_of_not_accepted (h : Heard hash env m nVersion vote)
    (he : Eligible env m vote) (hv : m.lastVote vote.vinMasternode ≠ some vote.nBlockHeight)
    (ha : ¬ Accepted env vote) :
    processMessage hash env m nVersion vote
      = (m.markSeen hash vote).setLastVote vote.vinMasternode vote.nBlockHeight := by
  rw [processMessage_of_eligible h he, canVote_of_ne hv]
  cases hinfo : env.getMasternodeInfo vote.vinMasternode with
  | none => rfl
  | some key =>
    cases hsig : env.checkSignature key vote with
    | false => simp [hsig]
    | true =>
      have hblock : env.getBlockHash (vote.nBlockHeight - 101) = false :=
        Bool.eq_false_iff.mpr fun hb => ha ⟨⟨key, hinfo, hsig⟩, hb⟩
      simp [hsig, addPaymentVote, hblock]

theorem processMessage_of_accepted (h : Heard hash env m nVersion vote)
    (he : Eligible env m vote) (hv : m.lastVote vote.vinMasternode ≠ some vote.nBlockHeight)
    (ha : Accepted env vote) :
    processMessage hash env m nVersion vote
      = ((m.markSeen hash vote).setLastVote vote.vinMasternode vote.nBlockHeight
          ).addVote hash vote := by
  obtain ⟨⟨key, hinfo, hsig⟩, hblock⟩ := ha
  rw [processMessage_of_eligible h he, canVote_of_ne hv]
  simp [hinfo, hsig, addPaymentVote, hblock, hasVerifiedPaymentVote_markSeen]

theorem processMessage_cases (hash : CScript → ℤ → COutPoint → H) (env : MasternodeEnv)
    (m : CMasternodePayments H) (nVersion : ℤ) (vote : CMasternodePaymentVote) :
    (¬ Heard hash env m nVersion vote ∧ processMessage hash env m nVersion vote = m) ∨
    (Heard hash env m nVersion vote ∧
      ¬ (Eligible env m vote ∧ m.lastVote vote.vinMasternode ≠ some vote.nBlockHeight) ∧
      processMessage hash env m nVersion vote = m.markSeen hash vote) ∨
    (Heard hash env m nVersion vote ∧
      (Eligible env m vote ∧ m.lastVote vote.vinMasternode ≠ some vote.nBlockHeight) ∧
      ¬ Accepted env vote ∧
      processMessage hash env m nVersion vote
        = (m.markSeen hash vote).setLastVote vote.vinMasternode vote.nBlockHeight) ∨
    (Heard hash env m nVersion vote ∧
      (Eligible env m vote ∧ m.lastVote vote.vinMasternode ≠ some vote.nBlockHeight) ∧
      Accepted env vote ∧
      processMessage hash env m nVersion vote
        = ((m.markSeen hash vote).setLastVote vote.vinMasternode vote.nBlockHeight
            ).addVote hash vote) := by
  rcases Classical.em (Heard hash env m nVersion vote) with h | h
  · rcases Classical.em (Eligible env m vote) with he | he
    · rcases Classical.em (m.lastVote vote.vinMasternode = some vote.nBlockHeight) with hv | hv
      · exact .inr (.inl ⟨h, fun hc => hc.2 hv, processMessage_of_voted h he hv⟩)
      · rcases Classical.em (Accepted env vote) with ha | ha
        · exact .inr (.inr (.inr ⟨h, ⟨he, hv⟩, ha, processMessage_of_accepted h he hv ha⟩))
        · exact .inr (.inr (.inl ⟨h, ⟨he, hv⟩, ha, processMessage_of_not_accepted h he hv ha⟩))
    · exact .inr (.inl ⟨h, fun hc => he hc.1, processMessage_of_not_eligible h he⟩)
  · exact .inl ⟨h, processMessage_of_not_heard h⟩

end CMasternodePayments

end Stonecoin
