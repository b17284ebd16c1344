/-
The loop of `ProcessVerifyReply`, with its iterator (`masternodeman.cpp`).

The iterator goes on at the end of the body only, and a `continue` stands before it: a node
that is no active masternode stays at the first masternode that signed the reply.

  * `reply_visits_iff`: when the loop comes to each masternode once, and ends.
-/
import Stonecoin.CollateralOwnership
import Stonecoin.Loops

namespace Stonecoin

open Loops

variable (crypto : MasternodeCrypto) (env : ManEnv) (v : VerifyEnv)

/-- The guards of `ProcessVerifyReply`; the message that the reply has to sign. -/
def replyMessage (mnv : CMasternodeVerification) : Option String :=
  if !v.requestFulfilled then none
  else if v.asked.nonce ≠ mnv.nonce then none
  else if v.asked.nBlockHeight ≠ mnv.nBlockHeight then none
  else
    match v.ranks.getBlockHash mnv.nBlockHeight with
    | none => none
    | some blockHash =>
      if v.doneFulfilled then none
      else some (verifyMessage1 crypto v.pnodeAddr mnv.nonce blockHash)

/-- The loop of `ProcessVerifyReply` between two passes. -/
structure ReplyLoop where
  it : ℕ
  vMasternodes : List CMasternode
  /-- `prealMasternode` is set. -/
  fReal : Bool
  vpMasternodesToBan : List ℕ
  /-- The places to which the loop has come. -/
  visits : List ℕ
deriving DecidableEq

/-- The loop before its first pass. -/
def ReplyLoop.start (vMasternodes : List CMasternode) : ReplyLoop :=
  ⟨0, vMasternodes, false, [], []⟩

variable (vchSig : List UInt8) (strMessage : String)

/-- The masternode has the address of the peer and has signed the reply. -/
def isReal (mn : CMasternode) : Bool :=
  mn.addr = v.pnodeAddr && crypto.verifyMessage mn.pubKeyMasternode vchSig strMessage

/-- What the real masternode gets for its reply. -/
def CMasternode.credited (mn : CMasternode) : CMasternode :=
  if !mn.isPoSeVerified then mn.decreasePoSeBanScore else mn

/-- A pass of the loop.  The result tells whether the function returned. -/
def replyPass (s : ReplyLoop) : ReplyLoop ⊕ (ReplyLoop × Bool) :=
  match s.vMasternodes[s.it]? with
  | none => .inr (s, false)
  | some mn =>
    let s := { s with visits := s.visits ++ [s.it] }
    if mn.addr = v.pnodeAddr then
      if crypto.verifyMessage mn.pubKeyMasternode vchSig strMessage then
        let s := { s with vMasternodes := s.vMasternodes.set s.it mn.credited, fReal := true }
        -- `continue`
        if env.activeVin = CTxIn.default then .inl s
        else if !v.signs mn.credited then .inr (s, true)
        else .inl { s with it := s.it + 1 }
      else .inl { s with
        vpMasternodesToBan := s.vpMasternodesToBan ++ [s.it]
        it := s.it + 1 }
    else .inl { s with it := s.it + 1 }

/-- The loop comes to each masternode exactly once, in the order of the list, and ends. -/
def VisitsEach (vMasternodes : List CMasternode) : Prop :=
  ∃ r, Ends (replyPass crypto env v vchSig strMessage) (.start vMasternodes) r ∧
    r.1.visits = List.range vMasternodes.length

/-- Each masternode that signed the reply finds an active masternode here, which can sign the
verification; after the last masternode of the list it does not matter. -/
def RepliesHandled (vMasternodes : List CMasternode) : Prop :=
  ∀ i mn, vMasternodes[i]? = some mn → isReal crypto v vchSig strMessage mn = true →
    env.activeVin ≠ CTxIn.default ∧
      (i + 1 < vMasternodes.length → v.signs mn.credited = true)

/-! ### One pass -/

section Pass

variable {crypto env v vchSig strMessage} {s : ReplyLoop} {mn : CMasternode}

theorem CMasternode.Scored.credited (mn : CMasternode) : mn.Scored mn.credited := by
  rw [CMasternode.credited]
  split_ifs
  · exact .decrease mn
  · exact .refl mn

theorem isReal_credited (mn : CMasternode) :
    isReal crypto v vchSig strMessage mn.credited = isReal crypto v vchSig strMessage mn := by
  obtain ⟨score, heq⟩ := CMasternode.Scored.credited mn
  rw [heq]
  rfl

theorem replyPass_end (h : s.vMasternodes[s.it]? = none) :
    replyPass crypto env v vchSig strMessage s = .inr (s, false) := by
  rw [replyPass, h]

variable (env) in
theorem replyPass_other (h : s.vMasternodes[s.it]? = some mn)
    (hreal : isReal crypto v vchSig strMessage mn = false) :
    ∃ ban, replyPass crypto env v vchSig strMessage s =
      .inl ⟨s.it + 1, s.vMasternodes, s.fReal, ban, s.visits ++ [s.it]⟩ := by
  rw [isReal, Bool.and_eq_false_iff, decide_eq_false_iff_not] at hreal
  rw [replyPass, h]
  dsimp only
  by_cases haddr : mn.addr = v.pnodeAddr
  · have hfails := hreal.resolve_left (not_not.mpr haddr)
    rw [if_pos haddr, if_neg (by simp [hfails])]
    exact ⟨_, rfl⟩
  · rw [if_neg haddr]
    exact ⟨_, rfl⟩

variable (env) in
theorem replyPass_real (h : s.vMasternodes[s.it]? = some mn)
    (hreal : isReal crypto v vchSig strMessage mn = true) :
    replyPass crypto env v vchSig strMessage s =
      if env.activeVin = CTxIn.default then
        .inl ⟨s.it, s.vMasternodes.set s.it mn.credited, true, s.vpMasternodesToBan,
          s.visits ++ [s.it]⟩
      else if !v.signs mn.credited then
        .inr (⟨s.it, s.vMasternodes.set s.it mn.credited, true, s.vpMasternodesToBan,
          s.visits ++ [s.it]⟩, true)
      else .inl ⟨s.it + 1, s.vMasternodes.set s.it mn.credited, true, s.vpMasternodesToBan,
        s.visits ++ [s.it]⟩ := by
  rw [isReal, Bool.and_eq_true, decide_eq_true_eq] at hreal
  rw [replyPass, h]
  dsimp only
  rw [if_pos hreal.1, if_pos hreal.2]

end Pass

/-! ### The loop -/

section Loop

variable {crypto env v vchSig strMessage} {mns : List CMasternode}

theorem not_ends_at_real (hnull : env.activeVin = CTxIn.default) {s : ReplyLoop}
    {mn : CMasternode} (h : s.vMasternodes[s.it]? = some mn)
    (hreal : isReal crypto v vchSig strMessage mn = true) (r : ReplyLoop × Bool) :
    ¬ Ends (replyPass crypto env v vchSig strMessage) s r := by
  refine not_ends (I := fun s => ∃ mn, s.vMasternodes[s.it]? = some mn ∧
    isReal crypto v vchSig strMessage mn = true) ?_ ⟨mn, h, hreal⟩
  rintro s ⟨mn, h, hreal⟩
  refine ⟨_, (replyPass_real env h hreal).trans (if_pos hnull), mn.credited, ?_,
    (isReal_credited mn).trans hreal⟩
  exact List.getElem?_set_self (List.getElem?_eq_some_iff.mp h).1

theorem verifyReplyLoop_other {mn : CMasternode}
    (hreal : isReal crypto v vchSig strMessage mn = false) :
    verifyReplyLoop crypto env v vchSig strMessage (mn :: mns) =
      (verifyReplyLoop crypto env v vchSig strMessage mns).map fun r => (mn :: r.1, r.2) := by
  rw [isReal, Bool.and_eq_false_iff, decide_eq_false_iff_not] at hreal
  rw [verifyReplyLoop, if_neg]
  rintro ⟨haddr, hsigned⟩
  rcases hreal with hne | hfails
  · exact hne haddr
  · exact absurd hsigned (by simp [hfails])

theorem verifyReplyLoop_real {mn : CMasternode}
    (hreal : isReal crypto v vchSig strMessage mn = true) :
    verifyReplyLoop crypto env v vchSig strMessage (mn :: mns) =
      if env.activeVin = CTxIn.default then none
      else if !v.signs mn.credited then some (mn.credited :: mns, true, true)
      else (verifyReplyLoop crypto env v vchSig strMessage mns).map
        fun r => (mn.credited :: r.1, true, r.2.2) := by
  rw [isReal, Bool.and_eq_true, decide_eq_true_eq] at hreal
  rw [verifyReplyLoop, if_pos hreal]
  rfl

theorem verifyReplyLoop_of_null (hnull : env.activeVin = CTxIn.default) {mn : CMasternode}
    (hmn : mn ∈ mns) (hreal : isReal crypto v vchSig strMessage mn = true) :
    verifyReplyLoop crypto env v vchSig strMessage mns = none := by
  induction mns with
  | nil => exact absurd hmn (by simp)
  | cons mn' mns ih =>
    cases hreal' : isReal crypto v vchSig strMessage mn' with
    | true => rw [verifyReplyLoop_real hreal', if_pos hnull]
    | false =>
      have hmem : mn ∈ mns := by
        rcases List.mem_cons.mp hmn with rfl | hmem
        · exact absurd (hreal.symm.trans hreal') (by decide)
        · exact hmem
      rw [verifyReplyLoop_other hreal', ih hmem]
      rfl

variable (crypto env v vchSig strMessage) in
theorem ends_verifyReplyLoop : ∀ (rest pre : List CMasternode) {s : ReplyLoop},
    s.vMasternodes = pre ++ rest → s.it = pre.length →
      (∀ x, verifyReplyLoop crypto env v vchSig strMessage rest = some x →
        ∃ r, Ends (replyPass crypto env v vchSig strMessage) s r ∧
          r.1.vMasternodes = pre ++ x.1 ∧ r.1.fReal = (s.fReal || x.2.1) ∧ r.2 = x.2.2) ∧
      (verifyReplyLoop crypto env v vchSig strMessage rest = none →
        ∀ r, ¬ Ends (replyPass crypto env v vchSig strMessage) s r)
  | [], pre, s, hmns, hit => by
    refine ⟨fun x hx => ?_, fun h => absurd h (by simp [verifyReplyLoop])⟩
    obtain rfl := Option.some.inj hx
    refine ⟨(s, false), .stop (replyPass_end ?_), hmns, (Bool.or_false _).symm, rfl⟩
    simp [hmns, hit]
  | mn :: rest, pre, s, hmns, hit => by
    have hat : s.vMasternodes[s.it]? = some mn := by simp [hmns, hit]
    have hset : s.vMasternodes.set s.it mn.credited = (pre ++ [mn.credited]) ++ rest := by
      simp [hmns, hit]
    -- the rest of the passes, after one that goes on
    have hgo : ∀ (s' : ReplyLoop) (pre' : List CMasternode),
        replyPass crypto env v vchSig strMessage s = .inl s' → s'.vMasternodes = pre' ++ rest →
          s'.it = pre'.length →
          (∀ x, verifyReplyLoop crypto env v vchSig strMessage rest = some x →
            ∃ r, Ends (replyPass crypto env v vchSig strMessage) s r ∧
              r.1.vMasternodes = pre' ++ x.1 ∧ r.1.fReal = (s'.fReal || x.2.1) ∧
              r.2 = x.2.2) ∧
          (verifyReplyLoop crypto env v vchSig strMessage rest = none →
            ∀ r, ¬ Ends (replyPass crypto env v vchSig strMessage) s r) := by
      intro s' pre' hpass hmns' hit'
      obtain ⟨hsome, hnone⟩ := ends_verifyReplyLoop rest pre' hmns' hit'
      refine ⟨fun x hx => ?_, fun h r hends => ?_⟩
      · obtain ⟨r, hends, hr⟩ := hsome x hx
        exact ⟨r, .next hpass hends, hr⟩
      · cases hends with
        | stop hstop => exact absurd (hpass.symm.trans hstop) (by simp)
        | next hnext hrest =>
          obtain rfl := Sum.inl.inj (hpass.symm.trans hnext)
          exact hnone h r hrest
    cases hreal : isReal crypto v vchSig strMessage mn with
    | false =>
      obtain ⟨ban, hpass⟩ := replyPass_other env hat hreal
      obtain ⟨hsome, hnone⟩ := hgo _ (pre ++ [mn]) hpass (by simp [hmns]) (by simp [hit])
      rw [verifyReplyLoop_other hreal]
      refine ⟨fun x hx => ?_, fun h => hnone (Option.map_eq_none_iff.mp h)⟩
      obtain ⟨x', hx', rfl⟩ := Option.map_eq_some_iff.mp hx
      obtain ⟨r, hends, hmns', hr⟩ := hsome x' hx'
      exact ⟨r, hends, by rw [hmns', List.append_assoc]; rfl, hr⟩
    | true =>
      have hpass := replyPass_real env hat hreal
      rw [verifyReplyLoop_real hreal]
      by_cases hnull : env.activeVin = CTxIn.default
      · rw [if_pos hnull]
        exact ⟨fun x hx => absurd hx (by simp), fun _ => not_ends_at_real hnull hat hreal⟩
      rw [if_neg hnull] at hpass ⊢
      cases hsigns : v.signs mn.credited with
      | false =>
        rw [hsigns] at hpass
        refine ⟨fun x hx => ?_, fun h => absurd h (by simp)⟩
        obtain rfl := Option.some.inj hx
        exact ⟨_, .stop hpass, by simp [hset], by simp, rfl⟩
      | true =>
        rw [hsigns] at hpass
        obtain ⟨hsome, hnone⟩ := hgo _ (pre ++ [mn.credited]) hpass hset (by simp [hit])
        refine ⟨fun x hx => ?_, fun h => hnone (Option.map_eq_none_iff.mp h)⟩
        obtain ⟨x', hx', rfl⟩ := Option.map_eq_some_iff.mp hx
        obtain ⟨r, hends, hmns', hfreal, hr⟩ := hsome x' hx'
        exact ⟨r, hends, by rw [hmns', List.append_assoc]; rfl, by simp [hfreal], hr⟩

variable (crypto env v vchSig strMessage mns) in
/-- An active masternode, or nobody signed the reply. -/
def ActiveFor : Prop :=
  ∀ mn ∈ mns, isReal crypto v vchSig strMessage mn = true → env.activeVin ≠ CTxIn.default

/-- The passes of an active masternode: from the iterator on the list is as it was, the places
before it have been visited, and who signed there has been verified. -/
structure ReplyLoop.Steady (mns : List CMasternode) (crypto : MasternodeCrypto) (v : VerifyEnv)
    (vchSig : List UInt8) (strMessage : String) (s : ReplyLoop) : Prop where
  visits : s.visits = List.range s.it
  le : s.it ≤ mns.length
  rest : ∀ j, s.it ≤ j → s.vMasternodes[j]? = mns[j]?
  signs : ∀ j mn, j < s.it → mns[j]? = some mn → isReal crypto v vchSig strMessage mn = true →
    v.signs mn.credited = true

theorem ReplyLoop.Steady.pass (hactive : ActiveFor crypto env v vchSig strMessage mns)
    {s : ReplyLoop} (hs : s.Steady mns crypto v vchSig strMessage) :
    (s.it = mns.length ∧ replyPass crypto env v vchSig strMessage s = .inr (s, false)) ∨
    (∃ s', replyPass crypto env v vchSig strMessage s = .inl s' ∧ s'.it = s.it + 1 ∧
      s'.Steady mns crypto v vchSig strMessage) ∨
    ∃ s' mn, replyPass crypto env v vchSig strMessage s = .inr (s', true) ∧
      s'.visits = List.range (s.it + 1) ∧ mns[s.it]? = some mn ∧
      isReal crypto v vchSig strMessage mn = true ∧ v.signs mn.credited = false := by
  have hvisits : s.visits ++ [s.it] = List.range (s.it + 1) := by
    rw [hs.visits, List.range_succ]
  have hat := hs.rest s.it le_rfl
  cases hmn : mns[s.it]? with
  | none =>
    refine .inl ⟨le_antisymm hs.le (List.getElem?_eq_none_iff.mp hmn), ?_⟩
    exact replyPass_end (hat.trans hmn)
  | some mn =>
    have hlt : s.it < mns.length := (List.getElem?_eq_some_iff.mp hmn).1
    rw [hmn] at hat
    cases hreal : isReal crypto v vchSig strMessage mn with
    | false =>
      obtain ⟨ban, hpass⟩ := replyPass_other env hat hreal
      refine .inr (.inl ⟨_, hpass, rfl, hvisits, hlt, ?_, ?_⟩)
      · exact fun j hj => hs.rest j (Nat.le_of_succ_le hj)
      · intro j mn' hj hmn' hreal'
        rcases Nat.lt_succ_iff_lt_or_eq.mp hj with hj | rfl
        · exact hs.signs j mn' hj hmn' hreal'
        · obtain rfl := Option.some.inj (hmn.symm.trans hmn')
          exact absurd (hreal.symm.trans hreal') (by decide)
    | true =>
      have hpass := (replyPass_real env hat hreal).trans
        (if_neg (hactive mn (List.mem_of_getElem? hmn) hreal))
      cases hsigns : v.signs mn.credited with
      | false =>
        rw [hsigns] at hpass
        exact .inr (.inr ⟨_, mn, hpass, hvisits, rfl, hreal, hsigns⟩)
      | true =>
        rw [hsigns] at hpass
        refine .inr (.inl ⟨_, hpass, rfl, hvisits, hlt, ?_, ?_⟩)
        · intro j hj
          show (s.vMasternodes.set s.it mn.credited)[j]? = _
          rw [List.getElem?_set_ne (Nat.ne_of_lt hj)]
          exact hs.rest j (Nat.le_of_succ_le hj)
        · intro j mn' hj hmn' hreal'
          rcases Nat.lt_succ_iff_lt_or_eq.mp hj with hj | rfl
          · exact hs.signs j mn' hj hmn' hreal'
          · obtain rfl := Option.some.inj (hmn.symm.trans hmn')
            exact hsigns

theorem steady_start : (ReplyLoop.start mns).Steady mns crypto v vchSig strMessage :=
  ⟨rfl, Nat.zero_le _, fun _ _ => rfl, fun _ _ hlt => absurd hlt (Nat.not_lt_zero _)⟩

theorem ends_of_active (hactive : ActiveFor crypto env v vchSig strMessage mns) :
    ∃ r, Ends (replyPass crypto env v vchSig strMessage) (.start mns) r := by
  refine ends_of_measure (I := fun s => s.Steady mns crypto v vchSig strMessage)
    (fun s => mns.length - s.it) (fun s s' hs hpass => ?_) steady_start
  rcases hs.pass hactive with ⟨-, hstop⟩ | ⟨s₁, hnext, hit, hs₁⟩ | ⟨s₁, mn, hstop, -⟩
  · exact absurd (hpass.symm.trans hstop) (by simp)
  · obtain rfl := Sum.inl.inj (hpass.symm.trans hnext)
    have hle := hs₁.le
    exact ⟨hs₁, by omega⟩
  · exact absurd (hpass.symm.trans hstop) (by simp)

theorem visits_of_active (hactive : ActiveFor crypto env v vchSig strMessage mns)
    {r : ReplyLoop × Bool}
    (h : Ends (replyPass crypto env v vchSig strMessage) (.start mns) r) :
    r.1.visits = List.range mns.length ↔ ∀ (i : ℕ) mn, mns[i]? = some mn →
      isReal crypto v vchSig strMessage mn = true → i + 1 < mns.length →
        v.signs mn.credited = true := by
  refine h.post (I := fun s => s.Steady mns crypto v vchSig strMessage)
    (Q := fun r => r.1.visits = List.range mns.length ↔ _) (fun s s' hs hpass => ?_)
    (fun s r hs hpass => ?_) steady_start
  · rcases hs.pass hactive with ⟨-, hstop⟩ | ⟨s₁, hnext, -, hs₁⟩ | ⟨s₁, mn, hstop, -⟩
    · exact absurd (hpass.symm.trans hstop) (by simp)
    · obtain rfl := Sum.inl.inj (hpass.symm.trans hnext)
      exact hs₁
    · exact absurd (hpass.symm.trans hstop) (by simp)
  · rcases hs.pass hactive with ⟨hit, hstop⟩ | ⟨s₁, hnext, -⟩ | ⟨s₁, mn, hstop, hvisits, hmn,
      hreal, hfails⟩
    · obtain rfl := Sum.inr.inj (hpass.symm.trans hstop)
      refine iff_of_true (hit ▸ hs.visits) fun i mn hi hreal _ => hs.signs i mn ?_ hi hreal
      rw [hit]
      exact (List.getElem?_eq_some_iff.mp hi).1
    · exact absurd (hpass.symm.trans hnext) (by simp)
    · obtain rfl := Sum.inr.inj (hpass.symm.trans hstop)
      -- it returned at this masternode, so that must be the last one
      have hlast : List.range (s.it + 1) = List.range mns.length ↔ s.it + 1 = mns.length :=
        ⟨fun heq => by simpa using congrArg List.length heq, fun heq => by rw [heq]⟩
      show s₁.visits = _ ↔ _
      rw [hvisits, hlast]
      constructor
      · intro heq i mn' hi hreal' hlt
        exact hs.signs i mn' (by omega) hi hreal'
      · intro hall
        have hlt := (List.getElem?_eq_some_iff.mp hmn).1
        by_contra hne
        exact absurd ((hall s.it mn hmn hreal (by omega)).symm.trans hfails) (by decide)

theorem visitsEach_iff : VisitsEach crypto env v vchSig strMessage mns ↔
    RepliesHandled crypto env v vchSig strMessage mns := by
  by_cases hactive : ActiveFor crypto env v vchSig strMessage mns
  · obtain ⟨r, hends⟩ := ends_of_active hactive
    have hiff := visits_of_active hactive hends
    constructor
    · rintro ⟨r', hends', hvisits⟩ i mn hi hreal
      obtain rfl := hends.unique hends'
      exact ⟨hactive mn (List.mem_of_getElem? hi) hreal, hiff.mp hvisits i mn hi hreal⟩
    · intro hall
      exact ⟨r, hends, hiff.mpr fun i mn hi hreal => (hall i mn hi hreal).2⟩
  · obtain ⟨mn, hmn, hreal, hnull⟩ : ∃ mn ∈ mns, isReal crypto v vchSig strMessage mn = true ∧
        env.activeVin = CTxIn.default := by
      simpa [ActiveFor] using hactive
    obtain ⟨i, hi⟩ := List.getElem?_of_mem hmn
    constructor
    · rintro ⟨r, hends, -⟩
      exact absurd hends ((ends_verifyReplyLoop crypto env v vchSig strMessage mns [] rfl rfl).2
        (verifyReplyLoop_of_null hnull hmn hreal) r)
    · intro hall
      exact absurd hnull (hall i mn hi hreal).1

end Loop

/-! ### A reply -/

theorem processVerifyReply_eq (man : CMasternodeMan) (mnv : CMasternodeVerification) :
    man.processVerifyReply crypto env v mnv =
      (replyMessage crypto v mnv).elim (some man)
        (man.judgeVerifyReply crypto env v mnv) := by
  rw [CMasternodeMan.processVerifyReply, replyMessage]
  split_ifs
  · rfl
  · rfl
  · rfl
  · cases v.ranks.getBlockHash mnv.nBlockHeight <;> rfl
  · cases v.ranks.getBlockHash mnv.nBlockHeight <;> rfl

/-- **Handling a reply**: when the loop comes to each masternode exactly once, and ends. -/
theorem reply_visits_iff (man : CMasternodeMan) (mnv : CMasternodeVerification) :
    (∀ strMessage, replyMessage crypto v mnv = some strMessage →
      VisitsEach crypto env v mnv.vchSig1 strMessage man.vMasternodes) ↔
    ∀ strMessage, replyMessage crypto v mnv = some strMessage →
      RepliesHandled crypto env v mnv.vchSig1 strMessage man.vMasternodes :=
  forall₂_congr fun _ _ => visitsEach_iff

/-- The peer was asked to verify itself, and replies with the signature of the key `[1]`. -/
def askedPeer : VerifyEnv where
  pnodeAddr := ⟨[], 0⟩
  asked := ⟨CTxIn.default, CTxIn.default, ⟨[], 0⟩, 42, 1, [], []⟩
  requestFulfilled := true
  doneFulfilled := false
  ranks := rankEnv
  currentHeight := 1
  signs := fun _ => true

def peerReply : CMasternodeVerification :=
  ⟨CTxIn.default, CTxIn.default, ⟨[], 0⟩, 42, 1, [1], []⟩

def repliedMan : CMasternodeMan :=
  { CMasternodeMan.init with
    vMasternodes := [{ masternodeAt 1 .MASTERNODE_ENABLED with pubKeyMasternode := [1] }] }

/-- **The loop never ends** in a node that is no active masternode. -/
theorem reply_loops : replyMessage keyCrypto askedPeer peerReply = some "42" ∧
    twoOwnersEnv.activeVin = CTxIn.default ∧
    ¬ ∃ r, Ends (replyPass keyCrypto twoOwnersEnv askedPeer peerReply.vchSig1 "42")
      (.start repliedMan.vMasternodes) r := by
  refine ⟨by decide +kernel, rfl, ?_⟩
  rintro ⟨r, hends⟩
  exact not_ends_at_real rfl rfl (by decide +kernel) r hends

end Stonecoin
