/-
Runs of the payment votes: messages, `CheckAndRemove` and new block tips in any order.

What is counted for a block is told by the list of its votes, each a payee and a
masternode (`Tally`).  The votes of a block are all in the map of the seen votes, so they
leave both maps together (`paymentTallies_consistent`).

`CanVote` knows the last height of a masternode only.  A masternode that votes for two
heights in turns has several votes for each of them (`masternode_votes_twice`); where no
vote gets past the check in this way, every masternode counts once for every block
(`masternode_votes_once`).
-/
import Stonecoin.Runs
import Stonecoin.PaymentVotes

namespace Stonecoin

open Runs

variable {H : Type}

/-- The votes `vs`, each a payee and a masternode, are what is counted for a block. -/
structure Tally (hash : CScript → ℤ → COutPoint → H) (nBlockHeight : ℤ)
    (vs : List (CScript × COutPoint)) (b : CMasternodeBlockPayees H) : Prop where
  height : b.nBlockHeight = nBlockHeight
  payees : (b.vecPayees.map (·.scriptPubKey)).Nodup
  hashes : ∀ p ∈ b.vecPayees, p.vecVoteHashes =
    (vs.filter (·.1 = p.scriptPubKey)).map fun v => hash v.1 nBlockHeight v.2
  counted : ∀ v ∈ vs, v.1 ∈ b.vecPayees.map (·.scriptPubKey)

namespace Tally

variable {hash : CScript → ℤ → COutPoint → H} {nBlockHeight : ℤ}
  {vs : List (CScript × COutPoint)} {b : CMasternodeBlockPayees H}

theorem nil : Tally hash nBlockHeight [] ⟨nBlockHeight, []⟩ where
  height := rfl
  payees := List.nodup_nil
  hashes := fun _ hp => absurd hp List.not_mem_nil
  counted := fun _ hv => absurd hv List.not_mem_nil

theorem addPayee (ht : Tally hash nBlockHeight vs b) (payee : CScript) (out : COutPoint) :
    Tally hash nBlockHeight (vs ++ [(payee, out)])
      (b.addPayee payee (hash payee nBlockHeight out)) := by
  have hscripts := addPayeeLoop_scriptPubKey payee (hash payee nBlockHeight out) b.vecPayees
  refine ⟨ht.height, ?_, fun p hp => ?_, fun v hv => ?_⟩
  · show ((addPayeeLoop _ _ _).map (·.scriptPubKey)).Nodup
    rw [hscripts]
    split_ifs with hmem
    · exact ht.payees
    · exact List.nodup_append.mpr ⟨ht.payees, List.nodup_singleton _, fun s hs s' hs' he =>
        hmem (by rwa [← List.mem_singleton.mp hs', ← he])⟩
  · have hnone : payee ∉ b.vecPayees.map (·.scriptPubKey) →
        (vs.filter (·.1 = payee)).map (fun v => hash v.1 nBlockHeight v.2) = [] := by
      intro hmem
      rw [List.map_eq_nil_iff, List.filter_eq_nil_iff]
      intro v hv he
      exact hmem (of_decide_eq_true he ▸ ht.counted v hv)
    rw [addPayeeLoop_hashes (f := fun s =>
      (vs.filter (·.1 = s)).map fun v => hash v.1 nBlockHeight v.2) payee _ ht.payees ht.hashes
      hnone p hp]
    split_ifs with hpay
    · simp [hpay]
    · simp [Ne.symm hpay]
  · show v.1 ∈ (addPayeeLoop _ _ _).map (·.scriptPubKey)
    rw [hscripts]
    rcases List.mem_append.mp hv with hv | hv
    · split_ifs
      · exact ht.counted v hv
      · exact List.mem_append_left _ (ht.counted v hv)
    · obtain rfl := List.mem_singleton.mp hv
      split_ifs with hmem
      · exact hmem
      · exact List.mem_append_right _ (List.mem_singleton.mpr rfl)

theorem hash_mem (ht : Tally hash nBlockHeight vs b) {v : CScript × COutPoint} (hv : v ∈ vs) :
    ∃ p ∈ b.vecPayees, hash p.scriptPubKey nBlockHeight v.2 ∈ p.vecVoteHashes := by
  obtain ⟨p, hp, hpv⟩ := List.mem_map.mp (ht.counted v hv)
  refine ⟨p, hp, ?_⟩
  rw [ht.hashes p hp, hpv]
  exact List.mem_map.mpr ⟨v, List.mem_filter.mpr ⟨hv, by simp⟩, rfl⟩

theorem getVoteCount_eq (ht : Tally hash nBlockHeight vs b) {p : CMasternodePayee H}
    (hp : p ∈ b.vecPayees) :
    p.getVoteCount = (vs.filter (·.1 = p.scriptPubKey)).length := by
  rw [CMasternodePayee.getVoteCount, ht.hashes p hp, List.length_map]

theorem getVoteCount_add_le (ht : Tally hash nBlockHeight vs b) {p q : CMasternodePayee H}
    (hp : p ∈ b.vecPayees) (hq : q ∈ b.vecPayees) (hne : p ≠ q) :
    p.getVoteCount + q.getVoteCount ≤ vs.length := by
  have hscript : p.scriptPubKey ≠ q.scriptPubKey :=
    fun he => hne (List.inj_on_of_nodup_map ht.payees hp hq he)
  rw [ht.getVoteCount_eq hp, ht.getVoteCount_eq hq, List.length_eq_length_filter_add (l := vs)
    (fun v => decide (v.1 = p.scriptPubKey))]
  apply Nat.add_le_add_left
  apply List.Sublist.length_le
  apply List.monotone_filter_right
  intro v hv
  have he : v.1 = q.scriptPubKey := of_decide_eq_true hv
  simp [he, hscript.symm]

end Tally

namespace CMasternodePayments

variable [DecidableEq H]

def HasVoted (hash : CScript → ℤ → COutPoint → H) (m : CMasternodePayments H)
    (outMasternode : COutPoint) (nBlockHeight : ℤ) : Prop :=
  ∃ b, m.mapMasternodeBlocks.lookup nBlockHeight = some b ∧
    ∃ p ∈ b.vecPayees, hash p.scriptPubKey nBlockHeight outMasternode ∈ p.vecVoteHashes

/-- What is counted for a block are different votes that meet `P` together, and all of them
are among the seen votes, verified. -/
def Counted (hash : CScript → ℤ → COutPoint → H) (P : List (CScript × COutPoint) → Prop)
    (m : CMasternodePayments H) : Prop :=
  ∀ nBlockHeight b, m.mapMasternodeBlocks.lookup nBlockHeight = some b →
    ∃ vs, Tally hash nBlockHeight vs b ∧ P vs ∧
      (vs.map fun v => hash v.1 nBlockHeight v.2).Nodup ∧
      ∀ v ∈ vs, ∃ vchSig,
        m.mapMasternodePaymentVotes.lookup (hash v.1 nBlockHeight v.2)
          = some ⟨v.2, nBlockHeight, v.1, vchSig⟩ ∧ vchSig ≠ []

variable {hash : CScript → ℤ → COutPoint → H} {P : List (CScript × COutPoint) → Prop}
  {env : MasternodeEnv} {m m' : CMasternodePayments H} {nVersion nHeight nLimit : ℤ}
  {vote : CMasternodePaymentVote}

theorem isVerified_iff : vote.isVerified = true ↔ vote.vchSig ≠ [] := by
  cases hsig : vote.vchSig with
  | nil => simp [CMasternodePaymentVote.isVerified, hsig]
  | cons b bs => simp [CMasternodePaymentVote.isVerified, hsig]

theorem counted_empty : Counted hash P (empty : CMasternodePayments H) := by
  intro nBlockHeight b hb
  exact absurd hb (by simp [empty])

theorem Counted.mono (hc : Counted hash P m)
    (hblocks : ∀ h b, m'.mapMasternodeBlocks.lookup h = some b →
      m.mapMasternodeBlocks.lookup h = some b)
    (hvotes : ∀ k w b, m.mapMasternodePaymentVotes.lookup k = some w → w.vchSig ≠ [] →
      m'.mapMasternodeBlocks.lookup w.nBlockHeight = some b →
      m'.mapMasternodePaymentVotes.lookup k = some w) : Counted hash P m' := by
  intro h b hb
  obtain ⟨vs, ht, hP, hnd, hseen⟩ := hc h b (hblocks h b hb)
  refine ⟨vs, ht, hP, hnd, fun v hv => ?_⟩
  obtain ⟨vchSig, hw, hver⟩ := hseen v hv
  exact ⟨vchSig, hvotes _ _ b hw hver hb, hver⟩

theorem Counted.markSeen (hc : Counted hash P m)
    (hnew : m.mapMasternodePaymentVotes.lookup (getHash hash vote) = none) :
    Counted hash P (m.markSeen hash vote) := by
  refine hc.mono (fun _ _ hb => hb) fun k w b hw _ _ => ?_
  have hne : k ≠ getHash hash vote := by
    rintro rfl
    exact absurd (hnew.symm.trans hw) (by simp)
  exact (AList.lookup_insert_ne hne).trans hw

theorem Counted.setLastVote (hc : Counted hash P m) (out : COutPoint) (nBlockHeight : ℤ) :
    Counted hash P (m.setLastVote out nBlockHeight) :=
  hc.mono (fun _ _ hb => hb) (fun _ _ _ hw _ _ => hw)

theorem Counted.addVote (hc : Counted hash P m) (hver : vote.vchSig ≠ [])
    (hnew : m.hasVerifiedPaymentVote (getHash hash vote) = false)
    (hP : ∀ vs, P vs → (∀ v ∈ vs, HasVoted hash m v.2 vote.nBlockHeight) →
      P (vs ++ [(vote.payee, vote.vinMasternode)])) (hnil : P []) :
    Counted hash P (m.addVote hash vote) := by
  -- verified votes are not replaced
  have hne : ∀ {k w}, m.mapMasternodePaymentVotes.lookup k = some w → w.vchSig ≠ [] →
      k ≠ getHash hash vote := by
    rintro k w hw hwver rfl
    rw [hasVerifiedPaymentVote, hw] at hnew
    exact absurd ((isVerified_iff.mpr hwver).symm.trans hnew) (by decide)
  have hkeep : ∀ {k w}, m.mapMasternodePaymentVotes.lookup k = some w → w.vchSig ≠ [] →
      (m.addVote hash vote).mapMasternodePaymentVotes.lookup k = some w :=
    fun hw hwver => (AList.lookup_insert_ne (hne hw hwver)).trans hw
  have hself : (m.addVote hash vote).mapMasternodePaymentVotes.lookup (getHash hash vote)
      = some vote := AList.lookup_insert _
  -- what is counted for the block before
  have hbefore : ∃ vs, Tally hash vote.nBlockHeight vs
        ((m.mapMasternodeBlocks.lookup vote.nBlockHeight).getD ⟨vote.nBlockHeight, []⟩) ∧
      P (vs ++ [(vote.payee, vote.vinMasternode)]) ∧
      (vs.map fun v => hash v.1 vote.nBlockHeight v.2).Nodup ∧
      ∀ v ∈ vs, ∃ vchSig,
        m.mapMasternodePaymentVotes.lookup (hash v.1 vote.nBlockHeight v.2)
          = some ⟨v.2, vote.nBlockHeight, v.1, vchSig⟩ ∧ vchSig ≠ [] := by
    cases hold : m.mapMasternodeBlocks.lookup vote.nBlockHeight with
    | none =>
      exact ⟨[], Tally.nil, hP [] hnil (fun v hv => absurd hv List.not_mem_nil), List.nodup_nil,
        fun v hv => absurd hv List.not_mem_nil⟩
    | some b =>
      obtain ⟨vs, ht, hPvs, hnd, hseen⟩ := hc vote.nBlockHeight b hold
      exact ⟨vs, ht, hP vs hPvs fun v hv => ⟨b, hold, ht.hash_mem hv⟩, hnd, hseen⟩
  intro h b hb
  rcases eq_or_ne h vote.nBlockHeight with rfl | hh
  · obtain rfl := Option.some.inj ((AList.lookup_insert _).symm.trans hb)
    obtain ⟨vs, ht, hPvs, hnd, hseen⟩ := hbefore
    refine ⟨vs ++ [(vote.payee, vote.vinMasternode)], ht.addPayee _ _, hPvs, ?_, fun v hv => ?_⟩
    · rw [List.map_append]
      refine List.nodup_append.mpr ⟨hnd, List.nodup_singleton _, fun k hk k' hk' he => ?_⟩
      obtain ⟨v, hv, rfl⟩ := List.mem_map.mp hk
      obtain ⟨vchSig, hw, hver⟩ := hseen v hv
      exact hne hw hver (he.trans (List.mem_singleton.mp hk'))
    · rcases List.mem_append.mp hv with hv | hv
      · obtain ⟨vchSig, hw, hver⟩ := hseen v hv
        exact ⟨vchSig, hkeep hw hver, hver⟩
      · obtain rfl := List.mem_singleton.mp hv
        exact ⟨vote.vchSig, hself, hver⟩
  · obtain ⟨vs, ht, hPvs, hnd, hseen⟩ := hc h b ((AList.lookup_insert_ne hh).symm.trans hb)
    refine ⟨vs, ht, hPvs, hnd, fun v hv => ?_⟩
    obtain ⟨vchSig, hw, hver⟩ := hseen v hv
    exact ⟨vchSig, hkeep hw hver, hver⟩

/-! ### `CheckAndRemove` -/

theorem Counted.removeOld (hc : Counted hash P m)
    {e : Sigma fun _ : H => CMasternodePaymentVote}
    (he : m.mapMasternodePaymentVotes.lookup e.1 = some e.2) :
    Counted hash P (CMasternodePayments.removeOld nHeight nLimit m e) := by
  unfold CMasternodePayments.removeOld
  split_ifs with hold
  · apply hc.mono
    · intro h b hb
      have hne : h ≠ e.2.nBlockHeight := by
        rintro rfl
        exact absurd ((AList.lookup_erase _ _).symm.trans hb) (by simp)
      exact (AList.lookup_erase_ne hne).symm.trans hb
    · intro k w b hw _ hb
      have hne : k ≠ e.1 := by
        rintro rfl
        obtain rfl := Option.some.inj (he.symm.trans hw)
        exact absurd ((AList.lookup_erase _ _).symm.trans hb) (by simp)
      exact (AList.lookup_erase_ne hne).trans hw
  · exact hc

theorem lookup_removeOld {e : Sigma fun _ : H => CMasternodePaymentVote} {k : H} (hne : k ≠ e.1) :
    (CMasternodePayments.removeOld nHeight nLimit m e).mapMasternodePaymentVotes.lookup k
      = m.mapMasternodePaymentVotes.lookup k := by
  unfold CMasternodePayments.removeOld
  split_ifs with hold
  · exact AList.lookup_erase_ne hne
  · rfl

theorem Counted.removeOld_foldl (nHeight nLimit : ℤ) :
    ∀ (es : List (Sigma fun _ : H => CMasternodePaymentVote)) {m : CMasternodePayments H},
      Counted hash P m → es.NodupKeys →
      (∀ e ∈ es, m.mapMasternodePaymentVotes.lookup e.1 = some e.2) →
      Counted hash P (es.foldl (CMasternodePayments.removeOld nHeight nLimit) m)
  | [], _, hc, _, _ => hc
  | e :: es, m, hc, hnd, hes => by
    obtain ⟨hkey, hnd'⟩ := List.nodupKeys_cons.mp hnd
    apply removeOld_foldl nHeight nLimit es (hc.removeOld (hes e (by simp))) hnd'
    intro e' he'
    have hne : e'.1 ≠ e.1 := fun h => hkey (h ▸ List.mem_keys_of_mem he')
    rw [lookup_removeOld hne]
    exact hes e' (List.mem_cons_of_mem _ he')

theorem Counted.checkAndRemove (hc : Counted hash P m) :
    Counted hash P (m.checkAndRemove env) := by
  unfold CMasternodePayments.checkAndRemove
  cases m.pCurrentBlockIndex with
  | none => exact hc
  | some nHeight =>
    exact Counted.removeOld_foldl nHeight _ _ hc m.mapMasternodePaymentVotes.nodupKeys
      fun e he => AList.mem_lookup_iff.mpr he

/-! ### One step -/

/-- What may be added beside the votes of its block. -/
def FitsIn (hash : CScript → ℤ → COutPoint → H) (P : List (CScript × COutPoint) → Prop)
    (m : CMasternodePayments H) (vote : CMasternodePaymentVote) : Prop :=
  ∀ vs, P vs → (∀ v ∈ vs, HasVoted hash m v.2 vote.nBlockHeight) →
    P (vs ++ [(vote.payee, vote.vinMasternode)])

theorem Counted.processMessage (hc : Counted hash P m) (hnil : P [])
    (hfit : Heard hash env m nVersion vote → Eligible env m vote →
      m.lastVote vote.vinMasternode ≠ some vote.nBlockHeight → Accepted env vote →
      FitsIn hash P m vote) :
    Counted hash P (CMasternodePayments.processMessage hash env m nVersion vote) := by
  obtain ⟨-, he⟩ | ⟨h, -, he⟩ | ⟨h, -, -, he⟩ | ⟨h, ⟨hel, hlast⟩, ha, he⟩ :=
    processMessage_cases hash env m nVersion vote
  · rw [he]; exact hc
  · rw [he]; exact hc.markSeen h.2.2.2.2
  · rw [he]; exact (hc.markSeen h.2.2.2.2).setLastVote _ _
  · rw [he]
    obtain ⟨⟨key, -, hcheck⟩, -⟩ := id ha
    refine ((hc.markSeen h.2.2.2.2).setLastVote _ _).addVote
      (isVerified_iff.mp (MasternodeEnv.isVerified_of_checkSignature hcheck))
      (hasVerifiedPaymentVote_markSeen _ _) ?_ hnil
    exact hfit h hel hlast ha

theorem Counted.addPaymentVote (hc : Counted hash P m) (hnil : P [])
    (hver : vote.vchSig ≠ [])
    (hfit : env.getBlockHash (vote.nBlockHeight - 101) = true →
      m.hasVerifiedPaymentVote (getHash hash vote) = false → FitsIn hash P m vote) :
    Counted hash P (CMasternodePayments.addPaymentVote hash env m vote).2 := by
  unfold CMasternodePayments.addPaymentVote
  split_ifs with hblock hnew
  · exact hc
  · exact hc
  · have hnew := Bool.eq_false_iff.mpr hnew
    exact hc.addVote hver hnew (hfit (by simpa using hblock) hnew) hnil

theorem voteNew_vchSig {nBlockHeight : ℤ} (h : voteNew env nBlockHeight = some vote) :
    vote.vchSig ≠ [] := by
  unfold voteNew at h
  dsimp only at h
  split_ifs at h
  cases hnext : env.getNextMasternodeInQueueForPayment nBlockHeight with
  | none => simp [hnext] at h
  | some payee =>
    rw [hnext] at h
    exact isVerified_iff.mp (MasternodeEnv.isVerified_of_checkSignature
      (MasternodeEnv.sign_spec h).1)

theorem Counted.updatedBlockTip (hc : Counted hash P m) (hnil : P [])
    (hfit : ∀ vote, voteNew env (nHeight + 10) = some vote →
      env.getBlockHash (vote.nBlockHeight - 101) = true →
      m.hasVerifiedPaymentVote (getHash hash vote) = false → FitsIn hash P m vote) :
    Counted hash P (CMasternodePayments.updatedBlockTip hash env m nHeight) := by
  have hc' : Counted hash P { m with pCurrentBlockIndex := some nHeight } :=
    hc.mono (fun _ _ hb => hb) (fun _ _ _ hw _ _ => hw)
  unfold CMasternodePayments.updatedBlockTip processBlock
  cases hvote : voteNew env (nHeight + 10) with
  | none => exact hc'
  | some vote => exact hc'.addPaymentVote hnil (voteNew_vchSig hvote) (hfit vote hvote)

/-! ### Runs -/

inductive PaymentEvent where
  | message (env : MasternodeEnv) (nVersion : ℤ) (vote : CMasternodePaymentVote)
  | addPaymentVote (env : MasternodeEnv) (vote : CMasternodePaymentVote)
  | checkAndRemove (env : MasternodeEnv)
  | updatedBlockTip (env : MasternodeEnv) (nHeight : ℤ)

def step (hash : CScript → ℤ → COutPoint → H) (m : CMasternodePayments H) :
    PaymentEvent → CMasternodePayments H
  | .message env nVersion vote => m.processMessage hash env nVersion vote
  | .addPaymentVote env vote => (m.addPaymentVote hash env vote).2
  | .checkAndRemove env => m.checkAndRemove env
  | .updatedBlockTip env nHeight => m.updatedBlockTip hash env nHeight

/-- A vote that is handed to `AddPaymentVote` has been signed here. -/
def SignedHere : PaymentEvent → Prop
  | .addPaymentVote env vote =>
    ∃ out nBlockHeight payee, env.sign out nBlockHeight payee = some vote
  | _ => True

/-- The votes of one event may be added beside those of their blocks. -/
def Fits (hash : CScript → ℤ → COutPoint → H) (P : List (CScript × COutPoint) → Prop)
    (m : CMasternodePayments H) : PaymentEvent → Prop
  | .message env nVersion vote =>
    Heard hash env m nVersion vote → Eligible env m vote →
      m.lastVote vote.vinMasternode ≠ some vote.nBlockHeight → Accepted env vote →
      FitsIn hash P m vote
  | .addPaymentVote env vote =>
    env.getBlockHash (vote.nBlockHeight - 101) = true →
      m.hasVerifiedPaymentVote (getHash hash vote) = false → FitsIn hash P m vote
  | .checkAndRemove _ => True
  | .updatedBlockTip env nHeight =>
    ∀ vote, voteNew env (nHeight + 10) = some vote →
      env.getBlockHash (vote.nBlockHeight - 101) = true →
      m.hasVerifiedPaymentVote (getHash hash vote) = false → FitsIn hash P m vote

theorem Counted.step (hc : Counted hash P m) (hnil : P []) {e : PaymentEvent}
    (hsigned : SignedHere e) (hfit : Fits hash P m e) :
    Counted hash P (CMasternodePayments.step hash m e) := by
  cases e with
  | message env nVersion vote => exact hc.processMessage hnil hfit
  | addPaymentVote env vote =>
    obtain ⟨out, nBlockHeight, payee, hsign⟩ := hsigned
    have hcheck := (MasternodeEnv.sign_spec hsign).1
    exact hc.addPaymentVote hnil
      (isVerified_iff.mp (MasternodeEnv.isVerified_of_checkSignature hcheck)) hfit
  | checkAndRemove env => exact hc.checkAndRemove
  | updatedBlockTip env nHeight => exact hc.updatedBlockTip hnil hfit

theorem Counted.run {guard : CMasternodePayments H → PaymentEvent → Prop} {es : List PaymentEvent}
    (hnil : P []) (hguard : ∀ m e, guard m e → SignedHere e ∧ Fits hash P m e)
    (h : Run (Guarded guard (CMasternodePayments.step hash)) empty es m) : Counted hash P m := by
  apply h.invariant (I := Counted hash P)
  · rintro m e m' hc ⟨hg, rfl⟩
    exact hc.step hnil (hguard m e hg).1 (hguard m e hg).2
  · exact counted_empty

theorem fits_true {e : PaymentEvent} : Fits hash (fun _ => True) m e := by
  cases e with
  | message => exact fun _ _ _ _ _ _ _ => trivial
  | addPaymentVote => exact fun _ _ _ _ _ => trivial
  | checkAndRemove => trivial
  | updatedBlockTip => exact fun _ _ _ _ _ _ _ => trivial

/-- **Payment tallies are consistent** in every run: the payees of a block differ, and so do
the votes of a payee, each of which is a verified vote for it and for this block. -/
theorem paymentTallies_consistent {es : List PaymentEvent}
    (h : Run (Guarded (fun _ => SignedHere) (CMasternodePayments.step hash)) empty es m)
    {nBlockHeight : ℤ} {b : CMasternodeBlockPayees H}
    (hb : m.mapMasternodeBlocks.lookup nBlockHeight = some b) :
    (b.vecPayees.map (·.scriptPubKey)).Nodup ∧
      ∀ p ∈ b.vecPayees, p.vecVoteHashes.Nodup ∧
        ∀ nHash ∈ p.vecVoteHashes, ∃ vote,
          m.mapMasternodePaymentVotes.lookup nHash = some vote ∧ vote.isVerified = true ∧
            vote.payee = p.scriptPubKey ∧ vote.nBlockHeight = nBlockHeight := by
  have hc : Counted hash (fun _ => True) m :=
    Counted.run trivial (fun m e hsigned => ⟨hsigned, fits_true⟩) h
  obtain ⟨vs, ht, -, hnd, hseen⟩ := hc nBlockHeight b hb
  refine ⟨ht.payees, fun p hp => ?_⟩
  rw [ht.hashes p hp]
  refine ⟨hnd.sublist (List.filter_sublist.map _), fun nHash hmem => ?_⟩
  obtain ⟨v, hv, rfl⟩ := List.mem_map.mp hmem
  obtain ⟨hv, hpay⟩ := List.mem_filter.mp hv
  obtain ⟨vchSig, hw, hver⟩ := hseen v hv
  exact ⟨_, hw, isVerified_iff.mpr hver, of_decide_eq_true hpay, rfl⟩

/-- A node that is synced, trusts every masternode and takes every signature that is there. -/
def syncedEnv : MasternodeEnv where
  isMasternodeListSynced := true
  fLiteMode := false
  fMasterNode := false
  spork10 := false
  size := 20
  find := fun _ => some 70206
  getMasternodeRank := fun _ _ _ => 1
  getMasternodeInfo := fun _ => some []
  verifyMessage := fun _ vchSig _ _ _ => !vchSig.isEmpty
  verifyMessage_nil := fun _ _ _ _ => rfl
  getBlockHash := fun _ => true
  activeMasternode := ⟨9, 0⟩
  getNextMasternodeInQueueForPayment := fun _ => none
  pubKeyMasternode := []
  signMessage := fun _ _ _ => none

/-- Hashes that do not collide. -/
def voteTriple (payee : CScript) (nBlockHeight : ℤ) (out : COutPoint) : CScript × ℤ × COutPoint :=
  (payee, nBlockHeight, out)

/-- A new tip, a vote that is added, and a round of `CheckAndRemove`. -/
def firstEvents : List PaymentEvent :=
  [.updatedBlockTip syncedEnv 200, .message syncedEnv 70206 ⟨⟨1, 0⟩, 210, [1], [7]⟩,
    .checkAndRemove syncedEnv]

/-- What is counted after them. -/
def firstPayees : CMasternodeBlockPayees (CScript × ℤ × COutPoint) :=
  ⟨210, [⟨[1], [voteTriple [1] 210 ⟨1, 0⟩]⟩]⟩

theorem paymentTallies_consistent_first :
    (firstPayees.vecPayees.map (·.scriptPubKey)).Nodup ∧
      ∀ p ∈ firstPayees.vecPayees, p.vecVoteHashes.Nodup ∧
        ∀ nHash ∈ p.vecVoteHashes, ∃ vote,
          (firstEvents.foldl (CMasternodePayments.step voteTriple) empty
            ).mapMasternodePaymentVotes.lookup nHash = some vote ∧ vote.isVerified = true ∧
            vote.payee = p.scriptPubKey ∧ vote.nBlockHeight = 210 := by
  have hrun : Run (Guarded (fun _ => SignedHere) (CMasternodePayments.step voteTriple)) empty
      firstEvents (firstEvents.foldl (CMasternodePayments.step voteTriple) empty) :=
    Run.of_admits ⟨trivial, trivial, trivial, trivial⟩
  exact paymentTallies_consistent hrun (by decide +kernel)

/-! ### One vote for each masternode -/

/-- No vote gets past the check for double votes: a masternode that has a vote for the block
is known to have voted for it last, or the node has this very vote already. -/
def VotesOnce (hash : CScript → ℤ → COutPoint → H) (m : CMasternodePayments H) :
    PaymentEvent → Prop
  | .message env nVersion vote =>
    Heard hash env m nVersion vote → Eligible env m vote → Accepted env vote →
      HasVoted hash m vote.vinMasternode vote.nBlockHeight →
      m.lastVote vote.vinMasternode = some vote.nBlockHeight
  | .addPaymentVote env vote =>
    env.getBlockHash (vote.nBlockHeight - 101) = true →
      HasVoted hash m vote.vinMasternode vote.nBlockHeight →
      m.hasVerifiedPaymentVote (getHash hash vote) = true
  | .checkAndRemove _ => True
  | .updatedBlockTip env nHeight =>
    ∀ vote, voteNew env (nHeight + 10) = some vote →
      env.getBlockHash (vote.nBlockHeight - 101) = true →
      HasVoted hash m vote.vinMasternode vote.nBlockHeight →
      m.hasVerifiedPaymentVote (getHash hash vote) = true

omit [DecidableEq H] in
theorem fitsIn_of_not_hasVoted
    (h : ¬ HasVoted hash m vote.vinMasternode vote.nBlockHeight) :
    FitsIn hash (fun vs => (vs.map (·.2)).Nodup) m vote := by
  intro vs hnd hvoted
  rw [List.map_append]
  refine List.nodup_append.mpr ⟨hnd, List.nodup_singleton _, fun o ho o' ho' he => ?_⟩
  obtain ⟨v, hv, rfl⟩ := List.mem_map.mp ho
  have hout : v.2 = vote.vinMasternode := he.trans (List.mem_singleton.mp ho')
  exact h (hout ▸ hvoted v hv)

theorem VotesOnce.fits {e : PaymentEvent} (h : VotesOnce hash m e) :
    Fits hash (fun vs => (vs.map (·.2)).Nodup) m e := by
  cases e with
  | message env nVersion vote =>
    intro hheard hel hlast ha
    exact fitsIn_of_not_hasVoted fun hv => hlast (h hheard hel ha hv)
  | addPaymentVote env vote =>
    intro hblock hnew
    apply fitsIn_of_not_hasVoted
    intro hv
    exact absurd ((h hblock hv).symm.trans hnew) (by decide)
  | checkAndRemove env => trivial
  | updatedBlockTip env nHeight =>
    intro vote hvote hblock hnew
    apply fitsIn_of_not_hasVoted
    intro hv
    exact absurd ((h vote hvote hblock hv).symm.trans hnew) (by decide)

/-- **One masternode, one vote for each block**, in every run in which no vote gets past the
check for double votes.  The votes of a payee are those of as many masternodes, and of ten
voters no two payees have a majority. -/
theorem masternode_votes_once {es : List PaymentEvent}
    (h : Run (Guarded (fun m e => SignedHere e ∧ VotesOnce hash m e)
      (CMasternodePayments.step hash)) empty es m)
    {nBlockHeight : ℤ} {b : CMasternodeBlockPayees H}
    (hb : m.mapMasternodeBlocks.lookup nBlockHeight = some b) :
    ∃ vs : List (CScript × COutPoint), (vs.map (·.2)).Nodup ∧
      (∀ v ∈ vs, v.1 ∈ b.vecPayees.map (·.scriptPubKey)) ∧
      (∀ p ∈ b.vecPayees, p.vecVoteHashes =
        (vs.filter (·.1 = p.scriptPubKey)).map fun v => hash v.1 nBlockHeight v.2) ∧
      (vs.length ≤ MNPAYMENTS_SIGNATURES_TOTAL → ∀ p ∈ b.vecPayees, ∀ q ∈ b.vecPayees,
        MNPAYMENTS_SIGNATURES_REQUIRED ≤ p.getVoteCount →
        MNPAYMENTS_SIGNATURES_REQUIRED ≤ q.getVoteCount → p = q) := by
  have hc : Counted hash (fun vs => (vs.map (·.2)).Nodup) m :=
    Counted.run List.nodup_nil (fun _ _ hg => ⟨hg.1, hg.2.fits⟩) h
  obtain ⟨vs, ht, hnd, -⟩ := hc nBlockHeight b hb
  refine ⟨vs, hnd, ht.counted, ht.hashes, fun hten p hp q hq hp6 hq6 => ?_⟩
  by_contra hne
  have hsum := ht.getVoteCount_add_le hp hq hne
  unfold MNPAYMENTS_SIGNATURES_TOTAL at hten
  unfold MNPAYMENTS_SIGNATURES_REQUIRED at hp6 hq6
  omega

theorem masternode_votes_once_first :
    ∃ vs : List (CScript × COutPoint), (vs.map (·.2)).Nodup ∧
      (∀ v ∈ vs, v.1 ∈ firstPayees.vecPayees.map (·.scriptPubKey)) ∧
      (∀ p ∈ firstPayees.vecPayees, p.vecVoteHashes =
        (vs.filter (·.1 = p.scriptPubKey)).map fun v => voteTriple v.1 210 v.2) ∧
      (vs.length ≤ MNPAYMENTS_SIGNATURES_TOTAL →
        ∀ p ∈ firstPayees.vecPayees, ∀ q ∈ firstPayees.vecPayees,
        MNPAYMENTS_SIGNATURES_REQUIRED ≤ p.getVoteCount →
        MNPAYMENTS_SIGNATURES_REQUIRED ≤ q.getVoteCount → p = q) := by
  have hrun : Run (Guarded (fun m e => SignedHere e ∧ VotesOnce voteTriple m e)
      (CMasternodePayments.step voteTriple)) empty firstEvents
      (firstEvents.foldl (CMasternodePayments.step voteTriple) empty) := ?_
  · exact masternode_votes_once hrun (by decide +kernel)
  refine Run.of_admits ⟨⟨trivial, ?_⟩, ⟨trivial, ?_⟩, ⟨trivial, trivial⟩, trivial⟩
  · have hnone : voteNew syncedEnv (200 + 10) = none := rfl
    exact fun vote hvote => absurd (hnone.symm.trans hvote) (by simp)
  · have hnone : (CMasternodePayments.step voteTriple empty
        (.updatedBlockTip syncedEnv 200)).mapMasternodeBlocks.lookup 210 = none := rfl
    rintro - - - ⟨b, hb, -⟩
    exact absurd (hnone.symm.trans hb) (by simp)

/-- The votes of one masternode for 210, for 211, and for 210 with another payee. -/
def turnEvents : List PaymentEvent :=
  [.updatedBlockTip syncedEnv 200,
    .message syncedEnv 70206 ⟨⟨1, 0⟩, 210, [1], [7]⟩,
    .message syncedEnv 70206 ⟨⟨1, 0⟩, 211, [1], [7]⟩,
    .message syncedEnv 70206 ⟨⟨1, 0⟩, 210, [2], [7]⟩]

/-- The events whose messages are signed by their masternodes. -/
def Verifies : PaymentEvent → Prop
  | .message env _ vote => Signed env vote
  | e => SignedHere e

/-- **A masternode that votes in turns votes twice**: its signed votes for 210 are counted for
two payees. -/
theorem masternode_votes_twice :
    ∃ m, Run (Guarded (fun _ => Verifies) (CMasternodePayments.step voteTriple)) empty
        turnEvents m ∧
      ∃ b, m.mapMasternodeBlocks.lookup 210 = some b ∧
        b.vecPayees = [⟨[1], [voteTriple [1] 210 ⟨1, 0⟩]⟩, ⟨[2], [voteTriple [2] 210 ⟨1, 0⟩]⟩] := by
  refine ⟨_, Run.of_admits ?_, ⟨210, _⟩, ?_, rfl⟩
  · exact ⟨trivial, ⟨_, rfl, rfl⟩, ⟨_, rfl, rfl⟩, ⟨_, rfl, rfl⟩, trivial⟩
  · decide +kernel

end CMasternodePayments

end Stonecoin
