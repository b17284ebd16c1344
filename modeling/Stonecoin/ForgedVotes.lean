/-
Payment votes with forged ones among them.

Two nodes start alike and receive the same messages, one of them forged ones as well.
`processMessage` marks a vote as seen, and `canVote` records its height, before the
signature is looked at, so a forged vote can have a later vote of the masternode dropped
(`forged_vote_suppresses`).  As long as no forged vote stands in the way of a later message
like this (`Harmless`), the nodes count the same votes (`forged_votes_harmless`).
-/
import Stonecoin.PaymentVoteRuns

namespace Stonecoin

namespace CMasternodePayments

variable {H : Type} [DecidableEq H]

/-- A message on its way, and whether only the second node receives it. -/
structure Received where
  forged : Bool
  env : MasternodeEnv
  nVersion : ℤ
  vote : CMasternodePaymentVote

/-- The messages are processed one after the other. -/
def receive (hash : CScript → ℤ → COutPoint → H) (m : CMasternodePayments H) (r : Received) :
    CMasternodePayments H :=
  m.processMessage hash r.env r.nVersion r.vote

/-- The messages of the first node. -/
def genuine (rs : List Received) : List Received := rs.filter fun r => !r.forged

/-- A forged vote stands in the way of no later message: none is for the same payee, height
and masternode, and none of the masternode is for its height or for the one that was
recorded before. -/
def Harmless (hash : CScript → ℤ → COutPoint → H) (m : CMasternodePayments H) (f : Received)
    (later : List Received) : Prop :=
  Heard hash f.env m f.nVersion f.vote → ∀ g ∈ genuine later,
    getHash hash g.vote ≠ getHash hash f.vote ∧
      (Eligible f.env m f.vote → m.lastVote f.vote.vinMasternode ≠ some f.vote.nBlockHeight →
        g.vote.vinMasternode = f.vote.vinMasternode →
        g.vote.nBlockHeight ≠ f.vote.nBlockHeight ∧
          m.lastVote f.vote.vinMasternode ≠ some g.vote.nBlockHeight)

/-- All forged votes of a run from `m` are. -/
def Undisturbed (hash : CScript → ℤ → COutPoint → H) : CMasternodePayments H → List Received → Prop
  | _, [] => True
  | m, r :: rs =>
    (r.forged = true → Harmless hash m r rs) ∧ Undisturbed hash (receive hash m r) rs

/-! ### What the parts of a message change -/

variable {hash : CScript → ℤ → COutPoint → H} {m m₁ m₂ : CMasternodePayments H}
  {vote : CMasternodePaymentVote} {out : COutPoint} {nBlockHeight : ℤ}

theorem seen_insert (k : H) (v : CMasternodePaymentVote) :
    ((m.mapMasternodePaymentVotes.insert (getHash hash vote) v).lookup k).isSome
      = (decide (k = getHash hash vote) || (m.mapMasternodePaymentVotes.lookup k).isSome) := by
  rcases eq_or_ne k (getHash hash vote) with rfl | hne
  · rw [AList.lookup_insert]; simp
  · rw [AList.lookup_insert_ne hne]; simp [hne]

theorem seen_markSeen (k : H) :
    ((m.markSeen hash vote).mapMasternodePaymentVotes.lookup k).isSome
      = (decide (k = getHash hash vote) || (m.mapMasternodePaymentVotes.lookup k).isSome) :=
  seen_insert k vote.markAsNotVerified

theorem seen_addVote (k : H) :
    ((m.addVote hash vote).mapMasternodePaymentVotes.lookup k).isSome
      = (decide (k = getHash hash vote) || (m.mapMasternodePaymentVotes.lookup k).isSome) :=
  seen_insert k vote

omit [DecidableEq H] in
theorem lastVote_setLastVote (o : COutPoint) :
    (m.setLastVote out nBlockHeight).lastVote o
      = if o = out then some nBlockHeight else m.lastVote o := by
  show (m.mapMasternodesLastVote.insert _ _).lookup o = _
  split_ifs with h
  · rw [h, AList.lookup_insert]
  · exact AList.lookup_insert_ne h

/-! ### The nodes agree -/

/-- The nodes count the same votes, and neither what they have seen nor the last votes tell
them apart on the messages to come. -/
structure Agree (hash : CScript → ℤ → COutPoint → H) (later : List Received)
    (m₁ m₂ : CMasternodePayments H) : Prop where
  tip : m₁.pCurrentBlockIndex = m₂.pCurrentBlockIndex
  blocks : m₁.mapMasternodeBlocks = m₂.mapMasternodeBlocks
  seen : ∀ g ∈ genuine later,
    (m₁.mapMasternodePaymentVotes.lookup (getHash hash g.vote)).isSome
      = (m₂.mapMasternodePaymentVotes.lookup (getHash hash g.vote)).isSome
  last : ∀ out, m₁.lastVote out = m₂.lastVote out ∨
    ∀ g ∈ genuine later, g.vote.vinMasternode = out →
      m₁.lastVote out ≠ some g.vote.nBlockHeight ∧ m₂.lastVote out ≠ some g.vote.nBlockHeight

namespace Agree

variable {env : MasternodeEnv} {nVersion : ℤ} {r : Received} {rs : List Received}

theorem heard_iff (ha : Agree hash (r :: rs) m₁ m₂) (hr : r.forged = false) :
    Heard hash r.env m₁ r.nVersion r.vote ↔ Heard hash r.env m₂ r.nVersion r.vote := by
  have hseen := ha.seen r (by simp [genuine, hr])
  simp only [Heard, ha.tip, ← Option.not_isSome_iff_eq_none, hseen]

theorem eligible_iff (ha : Agree hash rs m₁ m₂) :
    Eligible env m₁ vote ↔ Eligible env m₂ vote := by
  simp only [Eligible, ha.tip]

theorem last_iff (ha : Agree hash (r :: rs) m₁ m₂) (hr : r.forged = false) :
    m₁.lastVote r.vote.vinMasternode ≠ some r.vote.nBlockHeight ↔
      m₂.lastVote r.vote.vinMasternode ≠ some r.vote.nBlockHeight := by
  rcases ha.last r.vote.vinMasternode with h | h
  · rw [h]
  · have hg := h r (by simp [genuine, hr]) rfl
    exact iff_of_true hg.1 hg.2

theorem tail (ha : Agree hash (r :: rs) m₁ m₂) : Agree hash rs m₁ m₂ where
  tip := ha.tip
  blocks := ha.blocks
  seen := fun g hg => ha.seen g ((List.sublist_cons_self r rs).filter _ |>.subset hg)
  last := fun out => (ha.last out).imp_right fun h g hg =>
    h g ((List.sublist_cons_self r rs).filter _ |>.subset hg)

theorem markSeen (ha : Agree hash rs m₁ m₂) :
    Agree hash rs (m₁.markSeen hash vote) (m₂.markSeen hash vote) where
  tip := ha.tip
  blocks := ha.blocks
  seen := fun g hg => by rw [seen_markSeen, seen_markSeen, ha.seen g hg]
  last := ha.last

theorem setLastVote (ha : Agree hash rs m₁ m₂) :
    Agree hash rs (m₁.setLastVote out nBlockHeight) (m₂.setLastVote out nBlockHeight) where
  tip := ha.tip
  blocks := ha.blocks
  seen := ha.seen
  last := fun o => by
    rw [lastVote_setLastVote, lastVote_setLastVote]
    split_ifs
    · exact .inl rfl
    · exact ha.last o

theorem addVote (ha : Agree hash rs m₁ m₂) :
    Agree hash rs (m₁.addVote hash vote) (m₂.addVote hash vote) where
  tip := ha.tip
  blocks := by
    show m₁.mapMasternodeBlocks.insert _ _ = m₂.mapMasternodeBlocks.insert _ _
    rw [ha.blocks]
  seen := fun g hg => by rw [seen_addVote, seen_addVote, ha.seen g hg]
  last := ha.last

theorem both (ha : Agree hash (r :: rs) m₁ m₂) (hr : r.forged = false) :
    Agree hash rs (receive hash m₁ r) (receive hash m₂ r) := by
  have hheard := ha.heard_iff hr
  have hlast := ha.last_iff hr
  have hel : Eligible r.env m₁ r.vote ↔ Eligible r.env m₂ r.vote := ha.eligible_iff
  unfold receive
  obtain ⟨h, he⟩ | ⟨h, hno, he⟩ | ⟨h, hok, hacc, he⟩ | ⟨h, hok, hacc, he⟩ :=
    processMessage_cases hash r.env m₁ r.nVersion r.vote
  · rw [he, processMessage_of_not_heard (hheard.not.mp h)]
    exact ha.tail
  · rw [he]
    rcases Classical.em (Eligible r.env m₂ r.vote) with hel₂ | hel₂
    · have hv : m₂.lastVote r.vote.vinMasternode = some r.vote.nBlockHeight := by
        by_contra hv
        exact hno ⟨hel.mpr hel₂, hlast.mpr hv⟩
      rw [processMessage_of_voted (hheard.mp h) hel₂ hv]
      exact ha.tail.markSeen
    · rw [processMessage_of_not_eligible (hheard.mp h) hel₂]
      exact ha.tail.markSeen
  · rw [he, processMessage_of_not_accepted (hheard.mp h) (hel.mp hok.1) (hlast.mp hok.2) hacc]
    exact ha.tail.markSeen.setLastVote
  · rw [he, processMessage_of_accepted (hheard.mp h) (hel.mp hok.1) (hlast.mp hok.2) hacc]
    exact ha.tail.markSeen.setLastVote.addVote

theorem markSeen_right (ha : Agree hash rs m₁ m₂)
    (hlater : ∀ g ∈ genuine rs, getHash hash g.vote ≠ getHash hash vote) :
    Agree hash rs m₁ (m₂.markSeen hash vote) where
  tip := ha.tip
  blocks := ha.blocks
  seen := fun g hg => by rw [seen_markSeen, ha.seen g hg, decide_eq_false (hlater g hg)]; rfl
  last := ha.last

theorem setLastVote_right (ha : Agree hash rs m₁ m₂)
    (hlater : ∀ g ∈ genuine rs, g.vote.vinMasternode = out →
      g.vote.nBlockHeight ≠ nBlockHeight ∧ m₂.lastVote out ≠ some g.vote.nBlockHeight) :
    Agree hash rs m₁ (m₂.setLastVote out nBlockHeight) where
  tip := ha.tip
  blocks := ha.blocks
  seen := ha.seen
  last := fun o => by
    rw [lastVote_setLastVote]
    split_ifs with ho
    · subst ho
      right
      intro g hg hout
      obtain ⟨hne, hold⟩ := hlater g hg hout
      refine ⟨?_, fun h => hne (Option.some.inj h).symm⟩
      rcases ha.last o with h | h
      · rw [h]; exact hold
      · exact (h g hg hout).1
    · exact ha.last o

theorem forged (ha : Agree hash (r :: rs) m₁ m₂) (hsig : ¬ Signed r.env r.vote)
    (hh : Harmless hash m₂ r rs) : Agree hash rs m₁ (receive hash m₂ r) := by
  unfold receive
  obtain ⟨-, he⟩ | ⟨h, -, he⟩ | ⟨h, hok, -, he⟩ | ⟨-, -, hacc, -⟩ :=
    processMessage_cases hash r.env m₂ r.nVersion r.vote
  · rw [he]; exact ha.tail
  · rw [he]; exact ha.tail.markSeen_right fun g hg => (hh h g hg).1
  · rw [he]
    apply (ha.tail.markSeen_right fun g hg => (hh h g hg).1).setLastVote_right
    exact fun g hg hout => (hh h g hg).2 hok.1 hok.2 hout
  · exact absurd hacc.1 hsig

theorem run : ∀ {rs : List Received} {m₁ m₂ : CMasternodePayments H}, Agree hash rs m₁ m₂ →
    (∀ r ∈ rs, r.forged = true → ¬ Signed r.env r.vote) → Undisturbed hash m₂ rs →
    Agree hash [] ((genuine rs).foldl (receive hash) m₁) (rs.foldl (receive hash) m₂)
  | [], _, _, ha, _, _ => ha
  | r :: rs, m₁, m₂, ha, hsig, hu => by
    have hsig' : ∀ r ∈ rs, r.forged = true → ¬ Signed r.env r.vote :=
      fun r hr => hsig r (List.mem_cons_of_mem _ hr)
    cases hr : r.forged with
    | false =>
      have hg : genuine (r :: rs) = r :: genuine rs := by simp [genuine, hr]
      rw [hg]
      exact run (ha.both hr) hsig' hu.2
    | true =>
      have hg : genuine (r :: rs) = genuine rs := by simp [genuine, hr]
      rw [hg]
      exact run (ha.forged (hsig r (by simp) hr) (hu.1 hr)) hsig' hu.2

end Agree

/-- **Forged votes do no harm** where none stands in the way of a later message: after the
same messages with and without them, the same votes are counted. -/
theorem forged_votes_harmless {m : CMasternodePayments H} {rs : List Received}
    (hsig : ∀ r ∈ rs, r.forged = true → ¬ Signed r.env r.vote) (hu : Undisturbed hash m rs) :
    (rs.foldl (receive hash) m).mapMasternodeBlocks
      = ((genuine rs).foldl (receive hash) m).mapMasternodeBlocks := by
  have ha : Agree hash rs m m := ⟨rfl, rfl, fun _ _ => rfl, fun _ => .inl rfl⟩
  exact (ha.run hsig hu).blocks.symm

/-! ### A forged vote that does -/

/-- A node that takes the signature `[7]` only. -/
def strictEnv : MasternodeEnv :=
  { syncedEnv with
    verifyMessage := fun _ vchSig _ _ _ => vchSig = [7]
    verifyMessage_nil := fun _ _ _ _ => rfl }

def tipState : CMasternodePayments (CScript × ℤ × COutPoint) :=
  { empty with pCurrentBlockIndex := some 200 }

/-- A forged vote for 211, then the vote of the masternode for 210. -/
def otherHeight : List Received :=
  [⟨true, strictEnv, 70206, ⟨⟨1, 0⟩, 211, [2], [8]⟩⟩,
    ⟨false, strictEnv, 70206, ⟨⟨1, 0⟩, 210, [1], [7]⟩⟩]

theorem forged_votes_harmless_otherHeight :
    (otherHeight.foldl (receive voteTriple) tipState).mapMasternodeBlocks
      = ((genuine otherHeight).foldl (receive voteTriple) tipState).mapMasternodeBlocks := by
  apply forged_votes_harmless
  · intro r hr hf
    obtain rfl | rfl : r = _ ∨ r = _ := by simpa [otherHeight] using hr
    · rintro ⟨key, -, hcheck⟩
      exact absurd hcheck (by simp [MasternodeEnv.checkSignature, strictEnv])
    · exact absurd hf (by decide)
  · refine ⟨fun _ _ g hg => ?_, fun h => absurd h (by decide), trivial⟩
    obtain rfl : g = _ := by simpa [genuine] using hg
    exact ⟨by decide, fun _ _ _ => ⟨by decide, by decide⟩⟩

/-- A forged vote with the payee, height and masternode of the vote behind it. -/
def sameVote : List Received :=
  [⟨true, strictEnv, 70206, ⟨⟨1, 0⟩, 210, [1], [8]⟩⟩,
    ⟨false, strictEnv, 70206, ⟨⟨1, 0⟩, 210, [1], [7]⟩⟩]

/-- **A forged vote suppresses the vote of the masternode**: without it that vote is counted,
with it none is. -/
theorem forged_vote_suppresses :
    (∀ r ∈ sameVote, r.forged = true → ¬ Signed r.env r.vote) ∧
      (∀ r ∈ genuine sameVote, Signed r.env r.vote) ∧
      (((genuine sameVote).foldl (receive voteTriple) tipState).mapMasternodeBlocks.lookup 210
        = some ⟨210, [⟨[1], [voteTriple [1] 210 ⟨1, 0⟩]⟩]⟩) ∧
      (sameVote.foldl (receive voteTriple) tipState).mapMasternodeBlocks.lookup 210 = none := by
  refine ⟨fun r hr hf => ?_, fun r hr => ?_, by decide +kernel, by decide +kernel⟩
  · obtain rfl | rfl : r = _ ∨ r = _ := by simpa [sameVote] using hr
    · rintro ⟨key, -, hcheck⟩
      exact absurd hcheck (by simp [MasternodeEnv.checkSignature, strictEnv])
    · exact absurd hf (by decide)
  · obtain rfl : r = _ := by simpa [genuine, sameVote] using hr
    exact ⟨[], rfl, by decide⟩

end CMasternodePayments

end Stonecoin
