/-
How long a PoSe ban lasts (`masternode.cpp`, `masternodeman.cpp`).

A ban is due when the score of a masternode has reached its maximum; `Check` imposes it, up to
a height.  An announcement has the masternode checked first, and is refused if that has banned
it.  But `Check` does nothing when it ran a moment before: then the announcement is taken over,
the score starts anew, and the ban that was due is forgotten.  A verification that comes before
`Check` undoes the ban as well.

  * `ban_lasts`: every run without such announcements and verifications.
-/
import Stonecoin.VerificationScores

namespace Stonecoin

open MasternodeState

/-- What reaches `CMasternodeMan`, for masternodes that stay in the list. -/
inductive BanEvent
  | announce (pfrom : CNetAddr) (a : MnAnnounce)
  | ping (mnp : CMasternodePing)
  | verify (v : VerifyEnv) (mnv : CMasternodeVerification)
  | check (i : ℕ) (fForce : Bool)

variable (crypto : MasternodeCrypto)

def CMasternodeMan.banStep (man : CMasternodeMan) (e : ManEnv × BanEvent) :
    Option CMasternodeMan :=
  match e.2 with
  | .announce pfrom a => some (man.processAnnounce crypto e.1 pfrom a)
  | .ping mnp => some (man.processPing crypto e.1 mnp)
  | .verify v mnv => man.processVerify crypto e.1 v mnv
  | .check i fForce =>
    some { man with
      vMasternodes := man.vMasternodes.modify i fun mn => mn.check e.1 man.size fForce }

/-! ### Bans over time -/

inductive BanPhase
  | free
  /-- The score has reached the maximum. -/
  | due
  /-- `Check` has imposed the ban, up to a height. -/
  | imposed (nPoSeBanHeight : ℤ)
deriving DecidableEq

namespace BanPhase

/-- The ban has not been served. -/
def Under (env : ManEnv) : BanPhase → Prop
  | free => False
  | due => True
  | imposed nPoSeBanHeight => env.height < nPoSeBanHeight

def begin (mn : CMasternode) : BanPhase :=
  if mn.nPoSeBanScore < MASTERNODE_POSE_BAN_MAX_SCORE then free
  else if mn.isPoSeBanned then imposed mn.nPoSeBanHeight
  else due

/-- The ban after an event that has left the masternode in some state. -/
def next (env : ManEnv) (mn : CMasternode) : BanPhase → BanPhase
  | free => begin mn
  | due => if mn.isPoSeBanned then imposed mn.nPoSeBanHeight else due
  | imposed nPoSeBanHeight =>
    if env.height < nPoSeBanHeight then imposed nPoSeBanHeight else begin mn

def Inv : BanPhase → CMasternode → Prop
  | free, _ => True
  | due, mn => MASTERNODE_POSE_BAN_MAX_SCORE ≤ mn.nPoSeBanScore ∧ mn.isPoSeBanned = false
  | imposed nPoSeBanHeight, mn =>
    (mn.isPoSeBanned = true ∧ mn.nPoSeBanHeight = nPoSeBanHeight) ∨ mn.isOutpointSpent = true

end BanPhase

structure BanWatch where
  man : CMasternodeMan
  phase : BanPhase

def BanWatch.start (i : ℕ) (man : CMasternodeMan) : BanWatch :=
  ⟨man, (man.vMasternodes[i]?).elim .free BanPhase.begin⟩

/-- An announcement is taken over by the masternode at a place. -/
def Supersedes (env : ManEnv) (man : CMasternodeMan) (a : MnAnnounce) (i : ℕ) : Prop :=
  (env.fLiteMode || !env.isBlockchainSynced) = false ∧
    (man.mapSeenMasternodeBroadcast.lookup (a.read.getHash crypto)).isSome = false ∧
    (a.read.simpleCheck crypto env).2 = true ∧
    ∃ pmn, man.find a.vin = some (i, pmn) ∧
      (a.read.marked env).renews crypto env man.size pmn = true

/-- A verification takes one from the score of the masternode at a place. -/
def Credits (env : ManEnv) (v : VerifyEnv) (man : CMasternodeMan) (mnv : CMasternodeVerification)
    (i : ℕ) : Prop :=
  (env.fLiteMode || !env.isBlockchainSynced) = false ∧ mnv.vchSig1.isEmpty = false ∧
    if mnv.vchSig2.isEmpty then
      ∃ strMessage mn, replyMessage crypto v mnv = some strMessage ∧
        man.vMasternodes[i]? = some mn ∧ isReal crypto v mnv.vchSig1 strMessage mn = true
    else
      ∃ a, VerifyAdmitted crypto v man mnv a ∧ a.i = i ∧ a.signed1 crypto mnv = false ∧
        a.signed2 crypto mnv = false

/-- No announcement is taken over until the ban has been served, and no verification counts for
the masternode before `Check` has imposed the ban. -/
def BanKept (i : ℕ) (s : BanWatch) (e : ManEnv × BanEvent) : Prop :=
  s.phase.Under e.1 →
    match e.2 with
    | .announce _ a => ¬ Supersedes crypto e.1 s.man a i
    | .verify v mnv => s.phase = .due → ¬ Credits crypto e.1 v s.man mnv i
    | _ => True

structure BanStep (i : ℕ) (s : BanWatch) (e : ManEnv × BanEvent) (s' : BanWatch) : Prop where
  kept : BanKept crypto i s e
  step : s.man.banStep crypto e = some s'.man
  phase : s'.phase = (s'.man.vMasternodes[i]?).elim s.phase fun mn => s.phase.next e.1 mn

/-- **The ban lasts** over an event: it does not enable the masternode, and of all events only
verifications change the score, by one. -/
def BanLasts (e : ManEnv × BanEvent) (mn mn' : CMasternode) : Prop :=
  (mn'.isEnabled = true → mn.isEnabled = true) ∧
    (mn'.nPoSeBanScore = mn.nPoSeBanScore ∨
      (∃ v mnv, e.2 = .verify v mnv) ∧
        mn.nPoSeBanScore - 1 ≤ mn'.nPoSeBanScore ∧ mn'.nPoSeBanScore ≤ mn.nPoSeBanScore + 1)

/-! ### One masternode -/

section Masternode

variable {env : ManEnv} {phase : BanPhase} {mn mn' : CMasternode}

theorem BanPhase.begin_inv (mn : CMasternode) : (BanPhase.begin mn).Inv mn := by
  rw [BanPhase.begin]
  split_ifs with hlt hbanned
  · trivial
  · exact .inl ⟨hbanned, rfl⟩
  · exact ⟨not_lt.mp hlt, by simpa using hbanned⟩

theorem BanPhase.next_inv_of_served (h : ¬ phase.Under env) : (phase.next env mn').Inv mn' := by
  cases phase with
  | free => exact begin_inv mn'
  | due => exact absurd trivial h
  | imposed n =>
    have hserved : ¬ env.height < n := h
    rw [BanPhase.next, if_neg hserved]
    exact begin_inv mn'

theorem BanPhase.next_inv (hdue : phase = .due → MASTERNODE_POSE_BAN_MAX_SCORE ≤ mn'.nPoSeBanScore)
    (himposed : ∀ n, phase = .imposed n → phase.Inv mn') (hunder : phase.Under env) :
    (phase.next env mn').Inv mn' := by
  cases phase with
  | free => exact absurd hunder id
  | due =>
    rw [BanPhase.next]
    split_ifs with hbanned
    · exact .inl ⟨hbanned, rfl⟩
    · exact ⟨hdue rfl, by simpa using hbanned⟩
  | imposed n =>
    have hlt : env.height < n := hunder
    rw [BanPhase.next, if_pos hlt]
    exact himposed n rfl

/-- The masternode is as it was, or spent, or it has been banned now. -/
inductive CheckOutcome (mn mn' : CMasternode) : Prop
  | same : mn'.nActiveState = mn.nActiveState → mn'.nPoSeBanHeight = mn.nPoSeBanHeight →
      CheckOutcome mn mn'
  | spent : mn'.nActiveState = MASTERNODE_OUTPOINT_SPENT → CheckOutcome mn mn'
  | banned : mn'.nActiveState = MASTERNODE_POSE_BAN → mn.isPoSeBanned = false →
      mn.isOutpointSpent = false → CheckOutcome mn mn'

theorem check_outcome (h : MASTERNODE_POSE_BAN_MAX_SCORE ≤ mn.nPoSeBanScore ∧
      mn.isPoSeBanned = false ∨
    mn.isPoSeBanned = true ∧ env.height < mn.nPoSeBanHeight ∨ mn.isOutpointSpent = true)
    (size : ℕ) (fForce : Bool) :
    (mn.check env size fForce).nPoSeBanScore = mn.nPoSeBanScore ∧
      CheckOutcome mn (mn.check env size fForce) := by
  rw [CMasternode.check]
  by_cases hdown : env.shutdownRequested = true
  · rw [if_pos hdown]
    exact ⟨rfl, .same rfl rfl⟩
  rw [if_neg hdown]
  by_cases hskip : (!fForce && decide (env.getTime - mn.nTimeLastChecked <
      MASTERNODE_CHECK_SECONDS)) = true
  · rw [if_pos hskip]
    exact ⟨rfl, .same rfl rfl⟩
  rw [if_neg hskip]
  dsimp only
  by_cases hspent : mn.isOutpointSpent = true
  · rw [if_pos (show CMasternode.isOutpointSpent { mn with nTimeLastChecked := env.getTime } =
      true from hspent)]
    exact ⟨rfl, .same rfl rfl⟩
  rw [if_neg (show ¬ CMasternode.isOutpointSpent { mn with nTimeLastChecked := env.getTime } =
    true from hspent)]
  by_cases hcoins : CMasternode.collateralSpent env mn.vin.prevout = true
  · rw [if_pos hcoins]
    exact ⟨rfl, .spent rfl⟩
  rw [if_neg hcoins]
  by_cases hbanned : mn.isPoSeBanned = true
  · rw [if_pos (show CMasternode.isPoSeBanned { mn with nTimeLastChecked := env.getTime } =
      true from hbanned)]
    have hearly : env.height < mn.nPoSeBanHeight := by
      rcases h with ⟨-, hnot⟩ | ⟨-, hlt⟩ | h
      · exact absurd (hbanned.symm.trans hnot) (by decide)
      · exact hlt
      · exact absurd h hspent
    rw [if_pos hearly]
    exact ⟨rfl, .same rfl rfl⟩
  · rw [if_neg (show ¬ CMasternode.isPoSeBanned { mn with nTimeLastChecked := env.getTime } =
      true from hbanned)]
    have hmax : MASTERNODE_POSE_BAN_MAX_SCORE ≤ mn.nPoSeBanScore := by
      rcases h with ⟨hmax, -⟩ | ⟨hyes, -⟩ | h
      · exact hmax
      · exact absurd hyes hbanned
      · exact absurd h hspent
    rw [if_pos hmax]
    exact ⟨rfl, .banned rfl (by simpa using hbanned) (by simpa using hspent)⟩

theorem CheckOutcome.under (h : CheckOutcome mn mn')
    (hscore : phase = .due → mn.nPoSeBanScore ≤ mn'.nPoSeBanScore) (hinv : phase.Inv mn)
    (hunder : phase.Under env) :
    (mn'.isEnabled = true → mn.isEnabled = true) ∧ (phase.next env mn').Inv mn' := by
  constructor
  · intro henabled
    have hstate : mn'.nActiveState = MASTERNODE_ENABLED := of_decide_eq_true henabled
    cases h with
    | same heq _ => exact decide_eq_true (heq.symm.trans hstate)
    | spent hspent => exact absurd (hspent.symm.trans hstate) (by decide)
    | banned hbanned _ _ => exact absurd (hbanned.symm.trans hstate) (by decide)
  · refine BanPhase.next_inv (fun hdue => ?_) (fun n himposed => ?_) hunder
    · have hle := hscore hdue
      rw [hdue] at hinv
      exact hinv.1.trans hle
    · subst himposed
      cases h with
      | same heq hheight =>
        rcases hinv with ⟨hbanned, hn⟩ | hspent
        · refine .inl ⟨?_, hheight.trans hn⟩
          rw [CMasternode.isPoSeBanned, heq]
          exact hbanned
        · refine .inr ?_
          rw [CMasternode.isOutpointSpent, heq]
          exact hspent
      | spent hspent => exact .inr (decide_eq_true hspent)
      | banned _ hnot hlive =>
        rcases hinv with ⟨hbanned, -⟩ | hspent
        · exact absurd (hbanned.symm.trans hnot) (by decide)
        · exact absurd (hspent.symm.trans hlive) (by decide)

theorem check_under (hinv : phase.Inv mn) (hunder : phase.Under env) (size : ℕ) (fForce : Bool) :
    (mn.check env size fForce).nPoSeBanScore = mn.nPoSeBanScore ∧
      ((mn.check env size fForce).isEnabled = true → mn.isEnabled = true) ∧
      (phase.next env (mn.check env size fForce)).Inv (mn.check env size fForce) := by
  have hcase : MASTERNODE_POSE_BAN_MAX_SCORE ≤ mn.nPoSeBanScore ∧ mn.isPoSeBanned = false ∨
      mn.isPoSeBanned = true ∧ env.height < mn.nPoSeBanHeight ∨ mn.isOutpointSpent = true := by
    cases phase with
    | free => exact absurd hunder id
    | due => exact .inl hinv
    | imposed n =>
      rcases hinv with ⟨hbanned, hn⟩ | hspent
      · exact .inr (.inl ⟨hbanned, hn ▸ hunder⟩)
      · exact .inr (.inr hspent)
  obtain ⟨hscore, houtcome⟩ := check_outcome hcase size fForce
  exact ⟨hscore, houtcome.under (fun _ => hscore.ge) hinv hunder⟩

theorem same_under (hinv : phase.Inv mn) (hunder : phase.Under env) :
    mn.nPoSeBanScore = mn.nPoSeBanScore ∧ (mn.isEnabled = true → mn.isEnabled = true) ∧
      (phase.next env mn).Inv mn :=
  ⟨rfl, (CheckOutcome.same rfl rfl).under (fun _ => le_rfl) hinv hunder⟩

end Masternode

/-! ### What events do to a place of the list -/

section Places

variable {crypto} {env : ManEnv} {man man' : CMasternodeMan} {i : ℕ} {mn : CMasternode}

variable (crypto env) in
theorem processAnnounce_place (hmn : man.vMasternodes[i]? = some mn) (pfrom : CNetAddr)
    (a : MnAnnounce) :
    ∃ mn', (man.processAnnounce crypto env pfrom a).vMasternodes[i]? = some mn' ∧
      (mn' = mn ∨ (∃ size, mn' = mn.check env size false) ∨ Supersedes crypto env man a i) := by
  rw [CMasternodeMan.processAnnounce]
  cases hoff : env.fLiteMode || !env.isBlockchainSynced with
  | true => exact ⟨mn, hmn, .inl rfl⟩
  | false =>
    rw [if_neg Bool.false_ne_true]
    dsimp only
    have hflags : (if (man.checkMnbAndUpdateMasternodeList crypto env (some pfrom)
        a.read).1.fMasternodesAdded = true then
          { (man.checkMnbAndUpdateMasternodeList crypto env (some pfrom) a.read).1 with
            fMasternodesAdded := false, fMasternodesRemoved := false }
        else (man.checkMnbAndUpdateMasternodeList crypto env (some pfrom) a.read).1).vMasternodes =
        (man.checkMnbAndUpdateMasternodeList crypto env (some pfrom) a.read).1.vMasternodes := by
      split_ifs <;> rfl
    rw [hflags]
    cases hseen : (man.mapSeenMasternodeBroadcast.lookup (a.read.getHash crypto)).isSome with
    | true =>
      rw [checkMnb_seen (some pfrom) rfl hseen]
      exact ⟨mn, hmn, .inl rfl⟩
    | false =>
      obtain ⟨man₁, hman₁, heq⟩ := checkMnb_unseen env (some pfrom) (.inr hseen)
      rw [heq]
      cases hcheck : (a.read.simpleCheck crypto env).2 with
      | false => exact ⟨mn, hmn, .inl rfl⟩
      | true =>
        rw [if_pos rfl]
        cases hfind : man.find a.vin with
        | none =>
          have hfind' : man.find a.read.vin = none := hfind
          rw [hfind']
          dsimp only
          split_ifs
          · exact ⟨mn, List.getElem?_append_left (List.getElem?_eq_some_iff.mp hmn).1 ▸ hmn,
              .inl rfl⟩
          · exact ⟨mn, hmn, .inl rfl⟩
        | some r =>
          obtain ⟨j, pmn⟩ := r
          have hfind' : man.find a.read.vin = some (j, pmn) := hfind
          rw [hfind']
          dsimp only
          by_cases hj : j = i
          · subst hj
            obtain rfl := Option.some.inj
              ((CMasternodeMan.find_eq_some hfind).1.symm.trans hmn)
            refine ⟨_, List.getElem?_set_self (List.getElem?_eq_some_iff.mp hmn).1, ?_⟩
            have hsize : man₁.size = man.size := congrArg List.length hman₁
            cases hrenews : (a.read.marked env).renews crypto env man.size pmn with
            | true => exact .inr (.inr ⟨hoff, hseen, hcheck, pmn, hfind, hrenews⟩)
            | false =>
              rw [← hsize] at hrenews
              rcases update_of_not_renews hrenews with heq | heq
              · exact .inl heq
              · exact .inr (.inl ⟨_, heq⟩)
          · exact ⟨mn, (List.getElem?_set_ne hj).trans hmn, .inl rfl⟩

variable (crypto env) in
theorem processPing_place (hmn : man.vMasternodes[i]? = some mn) (mnp : CMasternodePing) :
    ∃ mn', (man.processPing crypto env mnp).vMasternodes[i]? = some mn' ∧
      (mn' = mn ∨ ∃ size, mn' = { mn with lastPing := mnp }.check env size true) := by
  rcases processPing_vMasternodes crypto env man mnp with heq | ⟨man₁, j, pmn, hfind, heq⟩
  · exact ⟨mn, heq ▸ hmn, .inl rfl⟩
  rw [heq]
  by_cases hj : j = i
  · subst hj
    obtain rfl := Option.some.inj ((CMasternodeMan.find_eq_some hfind).1.symm.trans hmn)
    refine ⟨_, List.getElem?_set_self (List.getElem?_eq_some_iff.mp hmn).1, ?_⟩
    rw [CMasternodePing.checkAndUpdate]
    split_ifs
    · exact .inl rfl
    · exact .inr ⟨_, rfl⟩
  · exact ⟨mn, (List.getElem?_set_ne hj).trans hmn, .inl rfl⟩

theorem verifyReplyLoop_place {v : VerifyEnv} {vchSig : List UInt8} {strMessage : String} :
    ∀ {mns : List CMasternode} {r} {i : ℕ},
      verifyReplyLoop crypto env v vchSig strMessage mns = some r → mns[i]? = some mn →
      ∃ mn', r.1[i]? = some mn' ∧
        (mn' = mn ∨ mn' = mn.credited ∧ isReal crypto v vchSig strMessage mn = true) := by
  intro mns
  induction mns with
  | nil => exact fun _ hmn => absurd hmn (by simp)
  | cons first mns ih =>
    intro r i h hmn
    -- the others, when the loop goes on with `first'` in the place of the first one
    have hgo : ∀ {first' : CMasternode} {r'}, verifyReplyLoop crypto env v vchSig strMessage mns =
        some r' → (first' = first ∨ first' = first.credited ∧
          isReal crypto v vchSig strMessage first = true) →
        ∃ mn', (first' :: r'.1)[i]? = some mn' ∧
          (mn' = mn ∨ mn' = mn.credited ∧ isReal crypto v vchSig strMessage mn = true) := by
      intro first' r' hr' hfirst
      cases i with
      | zero =>
        obtain rfl := Option.some.inj hmn
        exact ⟨first', rfl, hfirst⟩
      | succ i => exact ih hr' hmn
    cases hreal : isReal crypto v vchSig strMessage first with
    | false =>
      rw [verifyReplyLoop_other hreal] at h
      obtain ⟨r', hr', rfl⟩ := Option.map_eq_some_iff.mp h
      exact hgo hr' (.inl rfl)
    | true =>
      rw [verifyReplyLoop_real hreal] at h
      split_ifs at h
      · obtain rfl := Option.some.inj h
        cases i with
        | zero =>
          obtain rfl := Option.some.inj hmn
          exact ⟨_, rfl, .inr ⟨rfl, hreal⟩⟩
        | succ i => exact ⟨mn, hmn, .inl rfl⟩
      · obtain ⟨r', hr', rfl⟩ := Option.map_eq_some_iff.mp h
        exact hgo hr' (.inr ⟨rfl, hreal⟩)

theorem judgeVerifyReply_place {v : VerifyEnv} {mnv : CMasternodeVerification}
    {strMessage : String} (h : man.judgeVerifyReply crypto env v mnv strMessage = some man')
    (hmn : man.vMasternodes[i]? = some mn) :
    ∃ mn', man'.vMasternodes[i]? = some mn' ∧
      (mn' = mn ∨ mn' = mn.increasePoSeBanScore ∨
        mn' = mn.credited ∧ isReal crypto v mnv.vchSig1 strMessage mn = true) := by
  obtain ⟨r, hr, rfl⟩ := Option.map_eq_some_iff.mp h
  obtain ⟨mn', hmn', hcase⟩ := verifyReplyLoop_place hr hmn
  have hkept : mn' = mn ∨ mn' = mn.increasePoSeBanScore ∨
      mn' = mn.credited ∧ isReal crypto v mnv.vchSig1 strMessage mn = true :=
    hcase.imp_right .inr
  dsimp only
  split_ifs
  · exact ⟨mn', hmn', hkept⟩
  rw [CMasternodeMan.blameOthers, List.getElem?_map, hmn', Option.map_some]
  refine ⟨_, rfl, ?_⟩
  split_ifs with hblamed
  · -- who is blamed has not signed, so its score is as it was
    rcases hcase with rfl | ⟨rfl, hreal⟩
    · exact .inr (.inl rfl)
    · rw [← isReal_credited, isReal, Bool.and_eq_true] at hreal
      have hfails := hblamed.2
      rw [hreal.2] at hfails
      exact absurd hfails (by decide)
  · exact hkept

theorem processVerify_place {v : VerifyEnv} {mnv : CMasternodeVerification}
    (h : man.processVerify crypto env v mnv = some man') (hmn : man.vMasternodes[i]? = some mn) :
    ∃ mn', man'.vMasternodes[i]? = some mn' ∧
      (mn' = mn ∨ mn' = mn.increasePoSeBanScore ∨
        mn' = mn.credited ∧ Credits crypto env v man mnv i) := by
  have hsame : ∀ {man'}, some man = some man' → ∃ mn', man'.vMasternodes[i]? = some mn' ∧
      (mn' = mn ∨ mn' = mn.increasePoSeBanScore ∨
        mn' = mn.credited ∧ Credits crypto env v man mnv i) := by
    intro man' heq
    obtain rfl := Option.some.inj heq
    exact ⟨mn, hmn, .inl rfl⟩
  rw [CMasternodeMan.processVerify] at h
  cases hoff : env.fLiteMode || !env.isBlockchainSynced with
  | true =>
    rw [hoff] at h
    exact hsame h
  | false =>
    rw [hoff, if_neg Bool.false_ne_true] at h
    cases hsig1 : mnv.vchSig1.isEmpty with
    | true =>
      rw [hsig1] at h
      exact hsame h
    | false =>
      rw [hsig1, if_neg Bool.false_ne_true] at h
      cases hsig2 : mnv.vchSig2.isEmpty with
      | true =>
        rw [hsig2, if_pos rfl, processVerifyReply_eq] at h
        cases hmsg : replyMessage crypto v mnv with
        | none =>
          rw [hmsg] at h
          exact hsame h
        | some strMessage =>
          rw [hmsg] at h
          obtain ⟨mn', hmn', hcase⟩ := judgeVerifyReply_place h hmn
          refine ⟨mn', hmn', hcase.imp_right (Or.imp_right ?_)⟩
          rintro ⟨rfl, hreal⟩
          refine ⟨rfl, hoff, hsig1, ?_⟩
          rw [if_pos hsig2]
          exact ⟨strMessage, mn, hmsg, hmn, hreal⟩
      | false =>
        rw [hsig2, if_neg Bool.false_ne_true] at h
        obtain rfl := Option.some.inj h
        by_cases hadmitted : ∃ a, VerifyAdmitted crypto v man mnv a
        · obtain ⟨a, ha⟩ := hadmitted
          rw [processVerifyBroadcast_admitted ha]
          split_ifs with hsigned
          · exact ⟨mn, hmn, .inl rfl⟩
          rw [scoresMoved, List.getElem?_mapIdx, hmn, Option.map_some]
          refine ⟨_, rfl, ?_⟩
          split_ifs with hi hother
          · refine .inr (.inr ⟨rfl, hoff, hsig1, ?_⟩)
            rw [Bool.or_eq_true, not_or, Bool.not_eq_true, Bool.not_eq_true] at hsigned
            rw [if_neg (by simp [hsig2])]
            exact ⟨a, ha, hi.symm, hsigned.1, hsigned.2⟩
          · exact .inr (.inl rfl)
          · exact .inl rfl
        · rw [processVerifyBroadcast_refused (not_exists.mp hadmitted)]
          exact ⟨mn, hmn, .inl rfl⟩

end Places

inductive PlaceEffect (man : CMasternodeMan) (i : ℕ) (mn : CMasternode) :
    ManEnv × BanEvent → CMasternode → Prop
  | same {e : ManEnv × BanEvent} : PlaceEffect man i mn e mn
  | checked {env : ManEnv} {e : BanEvent} (mnp : CMasternodePing) (size : ℕ) (fForce : Bool) :
      PlaceEffect man i mn (env, e) ({ mn with lastPing := mnp }.check env size fForce)
  | superseded {env : ManEnv} {pfrom : CNetAddr} {a : MnAnnounce} {mn' : CMasternode} :
      Supersedes crypto env man a i → PlaceEffect man i mn (env, .announce pfrom a) mn'
  | raised {env : ManEnv} {v : VerifyEnv} {mnv : CMasternodeVerification} :
      PlaceEffect man i mn (env, .verify v mnv) mn.increasePoSeBanScore
  | credited {env : ManEnv} {v : VerifyEnv} {mnv : CMasternodeVerification} :
      Credits crypto env v man mnv i → PlaceEffect man i mn (env, .verify v mnv) mn.credited

section Run

variable {crypto} {man man' : CMasternodeMan} {i : ℕ} {mn mn' : CMasternode}
  {e : ManEnv × BanEvent} {s s' : BanWatch}

theorem banStep_place (h : man.banStep crypto e = some man')
    (hmn : man.vMasternodes[i]? = some mn) :
    ∃ mn', man'.vMasternodes[i]? = some mn' ∧ PlaceEffect crypto man i mn e mn' := by
  obtain ⟨env, e⟩ := e
  cases e with
  | announce pfrom a =>
    obtain rfl := Option.some.inj h
    obtain ⟨mn', hmn', hcase⟩ := processAnnounce_place crypto env hmn pfrom a
    refine ⟨mn', hmn', ?_⟩
    rcases hcase with rfl | ⟨size, rfl⟩ | hsupersedes
    · exact .same
    · exact .checked mn.lastPing size false
    · exact .superseded hsupersedes
  | ping mnp =>
    obtain rfl := Option.some.inj h
    obtain ⟨mn', hmn', hcase⟩ := processPing_place crypto env hmn mnp
    refine ⟨mn', hmn', ?_⟩
    rcases hcase with rfl | ⟨size, rfl⟩
    · exact .same
    · exact .checked mnp size true
  | verify v mnv =>
    obtain ⟨mn', hmn', hcase⟩ := processVerify_place h hmn
    refine ⟨mn', hmn', ?_⟩
    rcases hcase with rfl | rfl | ⟨rfl, hcredits⟩
    · exact .same
    · exact .raised
    · exact .credited hcredits
  | check j fForce =>
    obtain rfl := Option.some.inj h
    show ∃ mn', (man.vMasternodes.modify j fun mn => mn.check env man.size fForce)[i]? =
      some mn' ∧ _
    rw [List.getElem?_modify, hmn]
    by_cases hj : j = i
    · refine ⟨_, rfl, ?_⟩
      dsimp only
      rw [if_pos hj]
      exact .checked mn.lastPing man.size fForce
    · refine ⟨_, rfl, ?_⟩
      dsimp only
      rw [if_neg hj]
      exact .same

theorem CMasternode.increasePoSeBanScore_bounds (mn : CMasternode) :
    mn.nPoSeBanScore ≤ mn.increasePoSeBanScore.nPoSeBanScore ∧
      mn.increasePoSeBanScore.nPoSeBanScore ≤ mn.nPoSeBanScore + 1 := by
  rw [increasePoSeBanScore]
  split_ifs
  · exact ⟨by simp, le_rfl⟩
  · exact ⟨le_rfl, by simp⟩

theorem CMasternode.credited_bounds (mn : CMasternode) :
    mn.nPoSeBanScore - 1 ≤ mn.credited.nPoSeBanScore ∧
      mn.credited.nPoSeBanScore ≤ mn.nPoSeBanScore := by
  rw [credited, decreasePoSeBanScore]
  split_ifs
  · exact ⟨le_rfl, by simp⟩
  · exact ⟨by simp, le_rfl⟩
  · exact ⟨by simp, le_rfl⟩

theorem CMasternode.Scored.outcome (h : mn.Scored mn') : CheckOutcome mn mn' := by
  obtain ⟨score, rfl⟩ := h
  exact .same rfl rfl

theorem PlaceEffect.lasts {phase : BanPhase} (h : PlaceEffect crypto man i mn e mn')
    (hinv : phase.Inv mn) (hunder : phase.Under e.1)
    (hkept : BanKept crypto i ⟨man, phase⟩ e) :
    BanLasts e mn mn' ∧ (phase.next e.1 mn').Inv mn' := by
  have hguard := hkept hunder
  cases h with
  | same =>
    obtain ⟨hscore, henabled, hnext⟩ := same_under hinv hunder
    exact ⟨⟨henabled, .inl hscore⟩, hnext⟩
  | @checked env e mnp size fForce =>
    have hinv' : phase.Inv { mn with lastPing := mnp } := by
      cases phase <;> exact hinv
    obtain ⟨hscore, henabled, hnext⟩ := check_under hinv' hunder size fForce
    exact ⟨⟨henabled, .inl hscore⟩, hnext⟩
  | superseded hsupersedes => exact absurd hsupersedes hguard
  | @raised env v mnv =>
    obtain ⟨hlow, hhigh⟩ := mn.increasePoSeBanScore_bounds
    obtain ⟨henabled, hnext⟩ := (CMasternode.Scored.increase mn).outcome.under (fun _ => hlow)
      hinv hunder
    exact ⟨⟨henabled, .inr ⟨⟨v, mnv, rfl⟩, by omega, hhigh⟩⟩, hnext⟩
  | @credited env v mnv hcredits =>
    obtain ⟨hlow, hhigh⟩ := mn.credited_bounds
    obtain ⟨henabled, hnext⟩ := (CMasternode.Scored.credited mn).outcome.under
      (fun hdue => absurd hcredits (hguard hdue)) hinv hunder
    exact ⟨⟨henabled, .inr ⟨⟨v, mnv, rfl⟩, hlow, by omega⟩⟩, hnext⟩

/-- The ban that is watched says the truth about the masternode, once there is one. -/
structure BanWatch.Inv (i : ℕ) (s : BanWatch) : Prop where
  none : s.man.vMasternodes[i]? = none → s.phase = .free
  some : ∀ mn, s.man.vMasternodes[i]? = some mn → s.phase.Inv mn

theorem BanWatch.inv_start (i : ℕ) (man : CMasternodeMan) : (BanWatch.start i man).Inv i := by
  constructor
  · intro hnone
    have hnone' : man.vMasternodes[i]? = Option.none := hnone
    rw [BanWatch.start, hnone']
    rfl
  · intro mn hmn
    have hmn' : man.vMasternodes[i]? = Option.some mn := hmn
    rw [BanWatch.start, hmn']
    exact BanPhase.begin_inv mn

theorem BanStep.inv (h : BanStep crypto i s e s') (hinv : s.Inv i) : s'.Inv i := by
  have hphase := h.phase
  cases hmn : s.man.vMasternodes[i]? with
  | none =>
    have hfree := hinv.none hmn
    constructor
    · intro hnone
      rw [hphase, hnone]
      exact hfree
    · intro mn' hmn'
      rw [hphase, hmn', hfree]
      exact BanPhase.begin_inv mn'
  | some mn =>
    obtain ⟨mn', hmn', heffect⟩ := banStep_place h.step hmn
    rw [hmn'] at hphase
    refine ⟨fun hnone => absurd (hmn'.symm.trans hnone) (by simp), fun mn'' hmn'' => ?_⟩
    obtain rfl := Option.some.inj (hmn'.symm.trans hmn'')
    rw [hphase]
    by_cases hunder : s.phase.Under e.1
    · exact (heffect.lasts (hinv.some mn hmn) hunder h.kept).2
    · exact BanPhase.next_inv_of_served hunder

/-- **A PoSe ban lasts**: in a run without the announcements and verifications of `BanKept`, no
event enables a masternode or resets its score from when the score reached its maximum until
`Check` has imposed the ban and the chain has reached its height. -/
theorem ban_lasts {man₀ : CMasternodeMan} {es : List (ManEnv × BanEvent)}
    (hrun : Runs.Run (BanStep crypto i) (.start i man₀) es s) (hstep : BanStep crypto i s e s')
    (hmn : s.man.vMasternodes[i]? = some mn) (hunder : s.phase.Under e.1) :
    ∃ mn', s'.man.vMasternodes[i]? = some mn' ∧ BanLasts e mn mn' := by
  have hinv : s.Inv i :=
    hrun.invariant (I := fun s => s.Inv i) (fun _ _ _ hs ht => ht.inv hs) (BanWatch.inv_start i man₀)
  obtain ⟨mn', hmn', heffect⟩ := banStep_place hstep.step hmn
  exact ⟨mn', hmn', (heffect.lasts (hinv.some mn hmn) hunder hstep.kept).1⟩

end Run

/-! ### A ban that is forgotten -/

def banAnnounce (sigTime : ℤ) : MnAnnounce :=
  { announceOutput 1 with lastPing := ⟨⟨⟨9, 1⟩, [], 4294967295⟩, 6, sigTime, [3]⟩ }

/-- It has been announced before, and has the maximal score since its last check. -/
def dueMan (nTimeLastChecked : ℤ) : CMasternodeMan :=
  { CMasternodeMan.init with
    vMasternodes := [{ (banAnnounce 1499990000).read.toCMasternode with
      sigTime := 1480000000
      nTimeLastChecked := nTimeLastChecked
      nPoSeBanScore := 5 }] }

/-- The block 6 is recent. -/
def banEnv : ManEnv :=
  { twoOwnersEnv with
    mapBlockIndex := fun hash => if hash = 5 then some 100 else if hash = 6 then some 990 else none }

/-- A check a minute after the last one has imposed the ban. -/
def bannedMan : CMasternodeMan :=
  ((dueMan 1499999940).banStep keyCrypto (banEnv, .check 0 false)).getD .init

/-- Then an announcement comes. -/
def announcedAgain : CMasternodeMan :=
  bannedMan.processAnnounce keyCrypto banEnv [] (banAnnounce 1500000000)

/-- It is refused. -/
theorem ban_lasts_announced : ∃ mn mn', bannedMan.vMasternodes[0]? = some mn ∧
    mn.isPoSeBanned = true ∧ announcedAgain.vMasternodes[0]? = some mn' ∧
    BanLasts (banEnv, .announce [] (banAnnounce 1500000000)) mn mn' := by
  obtain ⟨mn, hmn⟩ := Option.isSome_iff_exists.mp
    (show bannedMan.vMasternodes[0]?.isSome = true by decide +kernel)
  have hbanned : bannedMan.vMasternodes[0]?.any (·.isPoSeBanned) = true := by decide +kernel
  have hrun : Runs.Run (BanStep keyCrypto 0) (.start 0 (dueMan 1499999940))
      [(banEnv, .check 0 false)] ⟨bannedMan, .imposed 1001⟩ :=
    .cons ⟨fun _ => trivial, rfl, by decide +kernel⟩ (.nil _)
  have hkept : BanKept keyCrypto 0 ⟨bannedMan, .imposed 1001⟩
      (banEnv, .announce [] (banAnnounce 1500000000)) := by
    rintro - ⟨-, -, -, pmn, hfind, hrenews⟩
    have hrefused : bannedMan.vMasternodes[0]?.any
        (fun mn => ((banAnnounce 1500000000).read.marked banEnv).renews keyCrypto banEnv
          bannedMan.size mn) = false := by decide +kernel
    rw [(CMasternodeMan.find_eq_some hfind).1] at hrefused
    exact absurd (hrenews.symm.trans hrefused) (by decide)
  have hstep : BanStep keyCrypto 0 ⟨bannedMan, .imposed 1001⟩
      (banEnv, .announce [] (banAnnounce 1500000000)) ⟨announcedAgain, .imposed 1001⟩ :=
    ⟨hkept, rfl, by decide +kernel⟩
  obtain ⟨mn', hmn', hlasts⟩ := ban_lasts hrun hstep hmn (show (1000 : ℤ) < 1001 by decide)
  rw [hmn] at hbanned
  exact ⟨mn, mn', hmn, hbanned, hmn', hlasts⟩

/-- **The same announcement, when the last check was two seconds ago**: the score is 0 again. -/
theorem ban_forgotten :
    (BanWatch.start 0 (dueMan 1499999998)).phase = .due ∧
    ((dueMan 1499999998).processAnnounce keyCrypto banEnv []
      (banAnnounce 1500000000)).vMasternodes.map (fun mn => (mn.nPoSeBanScore, mn.isEnabled)) =
        [(0, true)] ∧
    ¬ ∃ mn mn', (dueMan 1499999998).vMasternodes[0]? = some mn ∧
      ((dueMan 1499999998).processAnnounce keyCrypto banEnv []
        (banAnnounce 1500000000)).vMasternodes[0]? = some mn' ∧
      BanLasts (banEnv, .announce [] (banAnnounce 1500000000)) mn mn' := by
  refine ⟨by decide +kernel, by decide +kernel, ?_⟩
  rintro ⟨mn, mn', hmn, hmn', -, hscore⟩
  have hbefore : (dueMan 1499999998).vMasternodes[0]?.map (·.nPoSeBanScore) = some 5 := by
    decide +kernel
  have hafter : ((dueMan 1499999998).processAnnounce keyCrypto banEnv []
      (banAnnounce 1500000000)).vMasternodes[0]?.map (·.nPoSeBanScore) = some 0 := by
    decide +kernel
  rw [hmn, Option.map_some, Option.some.injEq] at hbefore
  rw [hmn', Option.map_some, Option.some.injEq] at hafter
  rcases hscore with hsame | ⟨⟨v, mnv, hverify⟩, -⟩
  · rw [hbefore, hafter] at hsame
    exact absurd hsame (by decide)
  · exact absurd hverify (by simp)

end Stonecoin
