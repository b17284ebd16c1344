/-
When `CheckAndRemove` takes up an announcement that it has seen before (`masternodeman.cpp`).

For a masternode that needs a new start, peers are asked to repeat its announcement.  Until the
deadline of the request each of them may reply once; then the replies are counted, and dropped.

  * `recovery_needs_quorum`: every announcement that is taken up again has its quorum.
-/
import Stonecoin.PoSeBans

namespace Stonecoin

variable {crypto : MasternodeCrypto} {env : ManEnv} {man man' : CMasternodeMan}

/-! ### Statement -/

/-- An announcement, with the state it arrives in. -/
structure Arrival where
  env : ManEnv
  man : CMasternodeMan
  pfrom : CNetAddr
  a : MnAnnounce

def eventArrivals (man : CMasternodeMan) (e : ManEnv × ManEvent) : List Arrival :=
  match e.2 with
  | .announce pfrom a => [⟨e.1, man, pfrom, a⟩]
  | _ => []

variable (crypto) in
def runArrivals : CMasternodeMan → List (ManEnv × ManEvent) → List Arrival
  | _, [] => []
  | man, e :: es =>
    eventArrivals man e ++ (man.step crypto e).elim [] fun man' => runArrivals man' es

variable (crypto) in
/-- The request for a hash was made by the event `e₀` of the run; what has arrived since
contains `rs`. -/
structure Requested (es : List (ManEnv × ManEvent)) (man : CMasternodeMan) (h : UInt256) (d : ℤ)
    (asked : Finset CNetAddr) (rs : List Arrival) : Prop where
  made : ∃ es₁ env₀ c es₂ man₁ man₂, es = es₁ ++ (env₀, .checkAndRemove c) :: es₂ ∧
    ManRun crypto .init es₁ man₁ ∧ man₂ = man₁.checkAndRemove crypto env₀ c ∧
    ManRun crypto man₂ es₂ man ∧ man₁.mMnbRecoveryRequests.lookup h = none ∧
    man₂.mMnbRecoveryRequests.lookup h = some (d, asked) ∧ rs.Sublist (runArrivals crypto man₂ es₂)

variable (crypto) in
/-- Announcements that answer a request: from different peers that were asked and are not
waited for any more, in time, and with a newer ping than the one that is known. -/
structure Answers (h : UInt256) (d : ℤ) (asked waiting : Finset CNetAddr) (rs : List Arrival) :
    Prop where
  hash : ∀ r ∈ rs, r.a.read.getHash crypto = h
  inTime : ∀ r ∈ rs, r.env.getTime < d
  asked : ∀ r ∈ rs, r.pfrom ∈ asked ∧ r.pfrom ∉ waiting
  pending : ∀ r ∈ rs, ∃ waiting', r.man.mMnbRecoveryRequests.lookup h = some (d, waiting')
  newer : ∀ r ∈ rs, ∃ seen, r.man.mapSeenMasternodeBroadcast.lookup h = some seen ∧
    seen.2.lastPing.sigTime < r.a.lastPing.sigTime
  peers : (rs.map Arrival.pfrom).Nodup

/-! ### What the parts of an announcement leave alone -/

/-- The requests and the replies. -/
def CMasternodeMan.recovery (man : CMasternodeMan) :
    (AList fun _ : UInt256 => ℤ × Finset CNetAddr) ×
      (AList fun _ : UInt256 => List CMasternodeBroadcast) :=
  (man.mMnbRecoveryRequests, man.mMnbRecoveryGoodReplies)

namespace CMasternodeMan

@[simp] theorem seePing_recovery (mnp : CMasternodePing) :
    (man.seePing crypto mnp).recovery = man.recovery := rfl

@[simp] theorem seeBroadcast_recovery (hash : UInt256) (t : ℤ) (mnb : CMasternodeBroadcast) :
    (man.seeBroadcast hash t mnb).recovery = man.recovery := rfl

@[simp] theorem forget_recovery (hash : UInt256) : (man.forget hash).recovery = man.recovery := rfl

@[simp] theorem put_recovery (i : ℕ) (mn : CMasternode) :
    (man.put i mn).recovery = man.recovery := rfl

@[simp] theorem refreshSeen_recovery (hash : UInt256) (mnp : CMasternodePing) :
    (man.refreshSeen hash mnp).recovery = man.recovery := by
  rw [refreshSeen]
  cases man.mapSeenMasternodeBroadcast.lookup hash with
  | none => rfl
  | some seen => rfl

@[simp] theorem add_recovery (mn : CMasternode) : (man.add mn).recovery = man.recovery := by
  rw [add]
  split_ifs <;> rfl

end CMasternodeMan

@[simp] theorem checkAndUpdate_recovery (mnp : CMasternodePing) (pmn : CMasternode)
    (fFromNewBroadcast : Bool) :
    (mnp.checkAndUpdate crypto env man pmn fFromNewBroadcast).1.recovery = man.recovery := by
  rw [CMasternodePing.checkAndUpdate]
  split_ifs
  · rfl
  · simp

@[simp] theorem updateFromNewBroadcast_recovery (pmn : CMasternode) (mnb : CMasternodeBroadcast) :
    (pmn.updateFromNewBroadcast crypto env man mnb).1.recovery = man.recovery := by
  have hping : ∀ pmn : CMasternode,
      (pmn.takePing crypto env man mnb.lastPing).1.recovery = man.recovery := by
    intro pmn
    simp only [CMasternode.takePing]
    split_ifs <;> simp
  simp only [CMasternode.updateFromNewBroadcast]
  split_ifs
  · rfl
  · exact hping _
  · exact hping _

@[simp] theorem update_recovery (pmn : CMasternode) (mnb : CMasternodeBroadcast) :
    (mnb.update crypto env man pmn).1.recovery = man.recovery := by
  simp only [CMasternodeBroadcast.update]
  split_ifs
  all_goals first | rfl | exact updateFromNewBroadcast_recovery _ _

theorem renew_recovery (i : ℕ) (pmn : CMasternode) (mnb : CMasternodeBroadcast) :
    (man.renew crypto env i pmn mnb).1.recovery = man.recovery := by
  simp only [CMasternodeMan.renew]
  split_ifs <;> simp

theorem enlist_recovery (mnb : CMasternodeBroadcast) :
    (man.enlist crypto env mnb).1.recovery = man.recovery := by
  rw [CMasternodeMan.enlist]
  cases mnb.checkOutpoint crypto env with
  | later => rfl
  | invalid => rfl
  | valid =>
    dsimp only
    split_ifs <;> simp

theorem checkMnb_recovery (pfrom : Option CNetAddr) {mnb : CMasternodeBroadcast}
    (h : mnb.fRecovery = true ∨ man.mapSeenMasternodeBroadcast.lookup (mnb.getHash crypto) = none) :
    (man.checkMnbAndUpdateMasternodeList crypto env pfrom mnb).1.recovery = man.recovery := by
  rw [CMasternodeMan.checkMnbAndUpdateMasternodeList]
  split
  · rename_i seen hrecovery hlookup
    rw [hrecovery, hlookup] at h
    simp at h
  · dsimp only
    split_ifs
    · rfl
    · split
      · exact renew_recovery _ _ _
      · exact enlist_recovery _

/-! ### One announcement -/

/-- The request and the replies for a hash. -/
def CMasternodeMan.round (man : CMasternodeMan) (h : UInt256) :
    Option (ℤ × Finset CNetAddr) × Option (List CMasternodeBroadcast) :=
  (man.mMnbRecoveryRequests.lookup h, man.mMnbRecoveryGoodReplies.lookup h)

theorem round_eq (heq : man'.recovery = man.recovery) (h : UInt256) :
    man'.round h = man.round h := by
  obtain ⟨hrequests, hreplies⟩ := Prod.mk.inj heq
  rw [CMasternodeMan.round, CMasternodeMan.round, hrequests, hreplies]

variable (crypto) in
/-- What becomes of the request and the replies for a hash when an announcement arrives. -/
inductive ReplyEffect (r : Arrival) (h : UInt256) :
    Option (ℤ × Finset CNetAddr) × Option (List CMasternodeBroadcast) → Prop
  | same : ReplyEffect r h (r.man.round h)
  /-- A peer that was asked has replied. -/
  | replied (d : ℤ) (waiting : Finset CNetAddr) (counted : Bool)
      (seen : ℤ × CMasternodeBroadcast) :
      r.a.read.getHash crypto = h → r.man.mMnbRecoveryRequests.lookup h = some (d, waiting) →
      r.man.mapSeenMasternodeBroadcast.lookup h = some seen → r.env.getTime < d →
      r.pfrom ∈ waiting →
      (counted = true → seen.2.lastPing.sigTime < r.a.lastPing.sigTime) →
      ReplyEffect r h (some (d, waiting.erase r.pfrom),
        if counted then
          some ((r.man.mMnbRecoveryGoodReplies.lookup h).getD [] ++ [r.a.read])
        else r.man.mMnbRecoveryGoodReplies.lookup h)

theorem seenAgain_round (r : Arrival) {seen : ℤ × CMasternodeBroadcast}
    (hseen : r.man.mapSeenMasternodeBroadcast.lookup (r.a.read.getHash crypto) = some seen)
    (h : UInt256) :
    ReplyEffect crypto r h
      ((r.man.seenAgain r.env (some r.pfrom) r.a.read (r.a.read.getHash crypto) seen).round h) := by
  unfold CMasternodeMan.seenAgain
  dsimp only
  generalize hman₁ : (if MASTERNODE_NEW_START_REQUIRED_SECONDS - MASTERNODE_MIN_MNP_SECONDS * 2 <
      r.env.getTime - seen.1 then
    { r.man with
      mapSeenMasternodeBroadcast := r.man.mapSeenMasternodeBroadcast.insert
        (r.a.read.getHash crypto) (r.env.getTime, seen.2) }
    else r.man) = man₁
  have hsame : man₁.recovery = r.man.recovery := by
    rw [← hman₁]
    split_ifs <;> rfl
  obtain ⟨hrequests, hreplies⟩ := Prod.mk.inj hsame
  have hround : ReplyEffect crypto r h (man₁.round h) := by
    rw [round_eq hsame]
    exact .same
  cases hrequest : man₁.mMnbRecoveryRequests.lookup (r.a.read.getHash crypto) with
  | none => exact hround
  | some request =>
    obtain ⟨d, waiting⟩ := request
    dsimp only
    by_cases hasked : r.env.getTime < d ∧ r.pfrom ∈ waiting
    · rw [if_pos hasked]
      have hrequest' := hrequest
      rw [hrequests] at hrequest'
      by_cases hh : h = r.a.read.getHash crypto
      · subst hh
        have heffect := fun counted => ReplyEffect.replied d waiting counted seen rfl hrequest'
          hseen hasked.1 hasked.2
        rw [← hreplies] at heffect
        split_ifs with hgood
        · convert heffect true fun _ => hgood.1 using 1
          simp [CMasternodeMan.round]
        · convert heffect false nofun using 1
          simp [CMasternodeMan.round]
      · have hother : ∀ {V : Type} (m : AList fun _ : UInt256 => V) (v : V),
            (m.insert (r.a.read.getHash crypto) v).lookup h = m.lookup h :=
          fun m v => AList.lookup_insert_ne hh
        split_ifs
        · simpa only [CMasternodeMan.round, hother] using hround
        · simpa only [CMasternodeMan.round, hother] using hround
    · rw [if_neg hasked]
      exact hround

theorem processAnnounce_round (r : Arrival) (h : UInt256) :
    ReplyEffect crypto r h ((r.man.processAnnounce crypto r.env r.pfrom r.a).round h) := by
  have hcheck : ReplyEffect crypto r h
      ((r.man.checkMnbAndUpdateMasternodeList crypto r.env (some r.pfrom) r.a.read).1.round h) := by
    cases hseen : r.man.mapSeenMasternodeBroadcast.lookup (r.a.read.getHash crypto) with
    | none =>
      rw [round_eq (checkMnb_recovery _ (.inr hseen))]
      exact .same
    | some seen =>
      have hrecovery : r.a.read.fRecovery = false := rfl
      rw [CMasternodeMan.checkMnbAndUpdateMasternodeList, hrecovery, hseen]
      exact seenAgain_round r hseen h
  rw [CMasternodeMan.processAnnounce]
  dsimp only
  split_ifs
  · exact .same
  · exact hcheck
  · exact hcheck

theorem processPing_recovery (mnp : CMasternodePing) :
    (man.processPing crypto env mnp).recovery = man.recovery := by
  simp only [CMasternodeMan.processPing]
  split_ifs
  · rfl
  · rfl
  · split
    · rfl
    · split_ifs
      · rfl
      · simp

theorem processVerify_recovery {v : VerifyEnv} {mnv : CMasternodeVerification}
    (h : man.processVerify crypto env v mnv = some man') : man'.recovery = man.recovery := by
  have hsame : ∀ {man'}, some man = some man' → man'.recovery = man.recovery := by
    intro man' heq
    obtain rfl := Option.some.inj heq
    rfl
  rw [CMasternodeMan.processVerify] at h
  split_ifs at h
  · exact hsame h
  · exact hsame h
  · rw [CMasternodeMan.processVerifyReply] at h
    repeat' split at h
    all_goals first | exact hsame h | skip
    obtain ⟨r, -, rfl⟩ := Option.map_eq_some_iff.mp h
    rfl
  · obtain rfl := Option.some.inj h
    rw [CMasternodeMan.processVerifyBroadcast]
    dsimp only
    repeat' split
    all_goals rfl

/-! ### `CheckAndRemove` -/

@[simp] theorem lookup_eraseWhere {V : Type} (p : V → Bool) (m : AList fun _ : UInt256 => V)
    (k : UInt256) : (eraseWhere p m).lookup k = (m.lookup k).filter fun v => !p v := by
  have hfold : ∀ (es : List (Sigma fun _ : UInt256 => V)) (m : AList fun _ : UInt256 => V),
      (es.foldl (fun m e => m.erase e.1) m).lookup k =
        if k ∈ es.map Sigma.fst then none else m.lookup k := by
    intro es
    induction es with
    | nil => intro m; simp
    | cons e es ih =>
      intro m
      rw [List.foldl_cons, ih, List.map_cons]
      by_cases hk : k = e.1
      · subst hk
        simp
      · rw [AList.lookup_erase_ne hk]
        exact if_congr (by simp [hk]) rfl rfl
  rw [eraseWhere, hfold]
  cases hl : m.lookup k with
  | none => simp
  | some v =>
    have hmem : k ∈ ((iterate uint256Lt m).filter fun e => p e.2).map Sigma.fst ↔ p v = true := by
      rw [List.mem_map]
      constructor
      · rintro ⟨e, he, rfl⟩
        rw [List.mem_filter, mem_iterate, ← AList.mem_lookup_iff, hl] at he
        obtain rfl := Option.some.inj he.1
        exact he.2
      · intro hp
        refine ⟨⟨k, v⟩, ?_, rfl⟩
        rw [List.mem_filter, mem_iterate, ← AList.mem_lookup_iff]
        exact ⟨hl, hp⟩
    cases hp : p v <;> simp [hmem, hp, Option.filter_some]

theorem removeLoop_round (c : RemoveEnv) (h : UInt256) : ∀ (mns : List CMasternode) (n : ℤ)
    (man : CMasternodeMan),
    (CMasternodeMan.removeLoop crypto env c mns n man).2.round h = man.round h ∨
      (man.round h).1 = none ∧ ∃ asked,
        (CMasternodeMan.removeLoop crypto env c mns n man).2.round h =
          (some (env.getTime + MNB_RECOVERY_WAIT_SECONDS, asked), (man.round h).2)
  | [], _, _ => .inl rfl
  | mn :: mns, n, man => by
    rw [CMasternodeMan.removeLoop]
    dsimp only
    by_cases hspent : mn.isOutpointSpent = true
    · rw [if_pos hspent]
      exact removeLoop_round c h mns n _
    rw [if_neg hspent]
    split
    · rename_i hask
      rw [Bool.and_eq_true, Bool.not_eq_true', CMasternodeMan.isMnbRecoveryRequested] at hask
      have hnone := Option.not_isSome_iff_eq_none.mp (Bool.eq_false_iff.mp hask.2)
      dsimp only
      generalize (if (c.peers mn).card = 0 then n else n - 1) = n'
      generalize hman₁ : ({ man with
        mMnbRecoveryRequests := man.mMnbRecoveryRequests.insert (mn.toBroadcast.getHash crypto)
          (env.getTime + MNB_RECOVERY_WAIT_SECONDS, c.peers mn) } : CMasternodeMan) = man₁
      have hrest := removeLoop_round c h mns n' man₁
      by_cases hh : h = mn.toBroadcast.getHash crypto
      · subst hh
        have hmade : man₁.round (mn.toBroadcast.getHash crypto) =
            (some (env.getTime + MNB_RECOVERY_WAIT_SECONDS, c.peers mn),
              (man.round (mn.toBroadcast.getHash crypto)).2) := by
          subst hman₁
          simp [CMasternodeMan.round]
        -- no later masternode asks for this hash again
        rcases hrest with hsame | ⟨habsent, -⟩
        · exact .inr ⟨hnone, c.peers mn, hsame.trans hmade⟩
        · rw [hmade] at habsent
          exact absurd habsent (by simp)
      · have hother : man₁.round h = man.round h := by
          subst hman₁
          simp [CMasternodeMan.round, AList.lookup_insert_ne hh]
        rwa [hother] at hrest
    · exact removeLoop_round c h mns n man

theorem removeSpent_round (c : RemoveEnv) (h : UInt256) :
    (man.removeSpent crypto env c).round h = man.round h ∨ (man.round h).1 = none ∧
      ∃ asked, (man.removeSpent crypto env c).round h =
        (some (env.getTime + MNB_RECOVERY_WAIT_SECONDS, asked), (man.round h).2) :=
  removeLoop_round c h _ _ (man.check env)

def RepliesAsked (man : CMasternodeMan) : Prop :=
  ∀ h, man.mMnbRecoveryRequests.lookup h = none → man.mMnbRecoveryGoodReplies.lookup h = none

def WaitOver (env : ManEnv) (man : CMasternodeMan) (h : UInt256) : Prop :=
  (man.mMnbRecoveryRequests.lookup h).elim 0 Prod.fst < env.getTime

instance (h : UInt256) : Decidable (WaitOver env man h) :=
  inferInstanceAs (Decidable ((_ : ℤ) < _))

theorem touchRequest_of_isSome {h : UInt256}
    (hrequest : (man.mMnbRecoveryRequests.lookup h).isSome = true) :
    man.touchRequest h = man := by
  rw [CMasternodeMan.touchRequest, insertNew, if_pos hrequest]

theorem recover_recovery {e : Sigma fun _ : UInt256 => List CMasternodeBroadcast}
    (hrequest : (man.mMnbRecoveryRequests.lookup e.1).isSome = true) :
    (man.recover crypto env e).recovery = (man.mMnbRecoveryRequests,
      if WaitOver env man e.1 then man.mMnbRecoveryGoodReplies.erase e.1
      else man.mMnbRecoveryGoodReplies) := by
  have hcall : ((man.reprocessed env e).elim (man.touchRequest e.1) fun mnb =>
      ((man.touchRequest e.1).checkMnbAndUpdateMasternodeList crypto env none mnb).1).recovery =
        man.recovery := by
    rw [touchRequest_of_isSome hrequest]
    cases hmnb : man.reprocessed env e with
    | none => rfl
    | some mnb =>
      have hrecovery : mnb.fRecovery = true := by
        rw [CMasternodeMan.reprocessed] at hmnb
        split_ifs at hmnb
        obtain ⟨mnb₀, -, rfl⟩ := Option.map_eq_some_iff.mp hmnb
        rfl
      exact checkMnb_recovery none (.inl hrecovery)
  rw [CMasternodeMan.recover]
  generalize ((man.reprocessed env e).elim (man.touchRequest e.1) fun mnb =>
    ((man.touchRequest e.1).checkMnbAndUpdateMasternodeList crypto env none mnb).1) = man₁
    at hcall ⊢
  obtain ⟨hrequests, hreplies⟩ := Prod.mk.inj hcall
  show (if decide (WaitOver env man e.1) = true then _ else man₁ : CMasternodeMan).recovery = _
  by_cases hover : WaitOver env man e.1
  · rw [if_pos (decide_eq_true hover), if_pos hover, ← hreplies]
    exact Prod.ext hrequests rfl
  · rw [if_neg (by simpa using hover), if_neg hover]
    exact hcall

theorem waitOver_congr (heq : man'.mMnbRecoveryRequests = man.mMnbRecoveryRequests) (h : UInt256) :
    WaitOver env man' h ↔ WaitOver env man h := by
  rw [WaitOver, WaitOver, heq]

variable (crypto env) in
theorem foldl_recover : ∀ (es : List (Sigma fun _ : UInt256 => List CMasternodeBroadcast))
    (man : CMasternodeMan), (∀ e ∈ es, (man.mMnbRecoveryRequests.lookup e.1).isSome = true) →
      (es.foldl (CMasternodeMan.recover crypto env) man).mMnbRecoveryRequests =
          man.mMnbRecoveryRequests ∧
        ∀ h, (es.foldl (CMasternodeMan.recover crypto env) man).mMnbRecoveryGoodReplies.lookup h =
          if h ∈ es.map Sigma.fst ∧ WaitOver env man h then none
          else man.mMnbRecoveryGoodReplies.lookup h
  | [], man, _ => ⟨rfl, fun h => by simp⟩
  | e :: es, man, hasked => by
    have hrecovery : (man.recover crypto env e).recovery = _ :=
      recover_recovery (hasked e List.mem_cons_self)
    obtain ⟨hrequests, hreplies⟩ := Prod.mk.inj hrecovery
    obtain ⟨hrequests', hreplies'⟩ := foldl_recover es (man.recover crypto env e) (by
      rw [hrequests]
      exact fun e' he' => hasked e' (List.mem_cons_of_mem e he'))
    rw [List.foldl_cons]
    refine ⟨hrequests'.trans hrequests, fun h => ?_⟩
    rw [hreplies' h, hreplies, List.map_cons]
    simp only [waitOver_congr hrequests]
    by_cases hh : h = e.1
    · subst hh
      by_cases hover : WaitOver env man e.1
      · simp [hover]
      · simp [hover]
    · have hlookup : (if WaitOver env man e.1 then man.mMnbRecoveryGoodReplies.erase e.1
          else man.mMnbRecoveryGoodReplies).lookup h = man.mMnbRecoveryGoodReplies.lookup h := by
        split_ifs
        · exact AList.lookup_erase_ne hh
        · rfl
      rw [hlookup]
      exact if_congr (by simp [hh]) rfl rfl

theorem expire_round (c : RemoveEnv) (h : UInt256) :
    (man.expire env c).round h =
      ((man.mMnbRecoveryRequests.lookup h).filter fun request =>
          !decide (MNB_RECOVERY_RETRY_SECONDS < env.getTime - request.1),
        man.mMnbRecoveryGoodReplies.lookup h) := by
  have hindex : ∀ man : CMasternodeMan,
      (man.checkAndRebuildMasternodeIndex env).recovery = man.recovery := by
    intro man
    rw [CMasternodeMan.checkAndRebuildMasternodeIndex]
    split_ifs <;> rfl
  rw [← lookup_eraseWhere]
  rw [CMasternodeMan.expire]
  dsimp only
  split_ifs
  · exact round_eq (hindex _) h
  · rfl

theorem removeSpent_asked (c : RemoveEnv) (hasked : RepliesAsked man) :
    RepliesAsked (man.removeSpent crypto env c) ∧
      ∀ h, (man.removeSpent crypto env c).mMnbRecoveryGoodReplies.lookup h =
        man.mMnbRecoveryGoodReplies.lookup h := by
  have hreplies : ∀ h, (man.removeSpent crypto env c).mMnbRecoveryGoodReplies.lookup h =
      man.mMnbRecoveryGoodReplies.lookup h := by
    intro h
    rcases removeSpent_round c h with hround | ⟨-, asked, hround⟩
    · exact congrArg Prod.snd hround
    · exact congrArg Prod.snd hround
  refine ⟨fun h hnone => ?_, hreplies⟩
  rw [hreplies h]
  apply hasked h
  rcases removeSpent_round c h with hround | ⟨habsent, -⟩
  · exact (congrArg Prod.fst hround).symm.trans hnone
  · exact habsent

theorem iterate_asked (hasked : RepliesAsked man) :
    ∀ e ∈ iterate uint256Lt man.mMnbRecoveryGoodReplies,
      (man.mMnbRecoveryRequests.lookup e.1).isSome = true := by
  intro e he
  rw [mem_iterate, ← AList.mem_lookup_iff] at he
  by_contra hnone
  rw [hasked e.1 (Option.not_isSome_iff_eq_none.mp hnone)] at he
  exact absurd he (by simp)

/-- What becomes of the request and the replies for a hash in `CheckAndRemove`. -/
inductive UpkeepEffect (env : ManEnv) (man : CMasternodeMan) (h : UInt256) :
    Option (ℤ × Finset CNetAddr) × Option (List CMasternodeBroadcast) → Prop
  | same : (∀ request, man.mMnbRecoveryRequests.lookup h = some request →
      ¬ request.1 < env.getTime) → UpkeepEffect env man h (man.round h)
  /-- A new request. -/
  | asked (asked : Finset CNetAddr) : man.mMnbRecoveryRequests.lookup h = none →
      UpkeepEffect env man h (some (env.getTime + MNB_RECOVERY_WAIT_SECONDS, asked), none)
  /-- The wait is over, and so may be the time until the next request. -/
  | counted (d : ℤ) (waiting : Finset CNetAddr) (kept : Bool) :
      man.mMnbRecoveryRequests.lookup h = some (d, waiting) → d < env.getTime →
      UpkeepEffect env man h (if kept then some (d, waiting) else none, none)

theorem lookup_replies_after (man : CMasternodeMan) (h : UInt256) :
    (if h ∈ (iterate uint256Lt man.mMnbRecoveryGoodReplies).map Sigma.fst ∧ WaitOver env man h
      then none else man.mMnbRecoveryGoodReplies.lookup h) =
    if WaitOver env man h then none else man.mMnbRecoveryGoodReplies.lookup h := by
  by_cases hmem : h ∈ (iterate uint256Lt man.mMnbRecoveryGoodReplies).map Sigma.fst
  · simp only [hmem, true_and]
  · have hnone : man.mMnbRecoveryGoodReplies.lookup h = none := by
      rw [← Option.not_isSome_iff_eq_none, Option.isSome_iff_exists]
      rintro ⟨mnbs, hmnbs⟩
      refine hmem (List.mem_map.mpr ⟨⟨h, mnbs⟩, ?_, rfl⟩)
      rw [mem_iterate, ← AList.mem_lookup_iff]
      exact hmnbs
    simp [hnone]

theorem checkAndRemove_round (c : RemoveEnv) (hasked : RepliesAsked man)
    (hsynced : env.isMasternodeListSynced = true) (h : UInt256) :
    UpkeepEffect env man h ((man.checkAndRemove crypto env c).round h) := by
  have hspent : RepliesAsked (man.removeSpent crypto env c) ∧ _ := removeSpent_asked c hasked
  have hround : (man.removeSpent crypto env c).round h = man.round h ∨ _ := removeSpent_round c h
  rw [CMasternodeMan.checkAndRemove, hsynced]
  show UpkeepEffect env man h ((((iterate uint256Lt _).foldl (CMasternodeMan.recover crypto env)
    (man.removeSpent crypto env c)).expire env c).round h)
  obtain ⟨hasked', hreplies⟩ := hspent
  obtain ⟨hrequests, hdropped⟩ := foldl_recover crypto env _ _ (iterate_asked hasked')
  rw [expire_round, hrequests, hdropped h, lookup_replies_after, hreplies h]
  generalize man.removeSpent crypto env c = man₁ at hround
  have hfst : (man₁.round h).1 = man₁.mMnbRecoveryRequests.lookup h := rfl
  cases hrequest : man.mMnbRecoveryRequests.lookup h with
  | none =>
    have hempty := hasked h hrequest
    rw [hempty, ite_self]
    rcases hround with hsame | ⟨-, asked, hmade⟩
    · have hnone : man₁.mMnbRecoveryRequests.lookup h = none := by
        rw [← hfst, hsame]
        exact hrequest
      have heffect : UpkeepEffect env man h _ := .same (by simp [hrequest])
      rw [CMasternodeMan.round, hrequest, hempty] at heffect
      rw [hnone]
      exact heffect
    · have hsome : man₁.mMnbRecoveryRequests.lookup h =
          some (env.getTime + MNB_RECOVERY_WAIT_SECONDS, asked) := by
        rw [← hfst, hmade]
      have hfresh : ¬ MNB_RECOVERY_RETRY_SECONDS <
          env.getTime - (env.getTime + MNB_RECOVERY_WAIT_SECONDS) := by
        rw [MNB_RECOVERY_RETRY_SECONDS, MNB_RECOVERY_WAIT_SECONDS]
        omega
      have heffect : UpkeepEffect env man h _ := .asked asked hrequest
      rw [hsome, Option.filter_some, decide_eq_false hfresh]
      exact heffect
  | some request =>
    obtain ⟨d, waiting⟩ := request
    have hsome : man₁.mMnbRecoveryRequests.lookup h = some (d, waiting) := by
      rcases hround with hsame | ⟨habsent, -⟩
      · rw [← hfst, hsame]
        exact hrequest
      · exact absurd (habsent.symm.trans hrequest) (by simp)
    have hover : WaitOver env man₁ h ↔ d < env.getTime := by
      rw [WaitOver, hsome, Option.elim_some]
    rw [hsome, Option.filter_some]
    by_cases hlate : d < env.getTime
    · rw [if_pos (hover.mpr hlate)]
      exact .counted d waiting (!decide (MNB_RECOVERY_RETRY_SECONDS < env.getTime - d)) hrequest
        hlate
    · have hfresh : ¬ MNB_RECOVERY_RETRY_SECONDS < env.getTime - d := by
        rw [MNB_RECOVERY_RETRY_SECONDS]
        omega
      have heffect : UpkeepEffect env man h _ := .same (by
        rw [hrequest]
        rintro request ⟨⟩
        exact hlate)
      rw [CMasternodeMan.round, hrequest] at heffect
      rw [if_neg (mt hover.mp hlate), decide_eq_false hfresh]
      exact heffect

/-! ### The announcements of a run -/

@[simp] theorem runArrivals_nil (man : CMasternodeMan) : runArrivals crypto man [] = [] := rfl

theorem runArrivals_append {es fs : List (ManEnv × ManEvent)} (hrun : ManRun crypto man es man') :
    runArrivals crypto man (es ++ fs) = runArrivals crypto man es ++ runArrivals crypto man' fs := by
  induction hrun with
  | nil man => rfl
  | @cons man man₁ man' e es ht _ ih =>
    have ht' : man.step crypto e = some man₁ := ht
    rw [List.cons_append, runArrivals, runArrivals, ht', Option.elim_some, Option.elim_some, ih,
      List.append_assoc]

theorem runArrivals_snoc {es : List (ManEnv × ManEvent)} (e : ManEnv × ManEvent)
    (hrun : ManRun crypto man es man') :
    runArrivals crypto man (es ++ [e]) = runArrivals crypto man es ++ eventArrivals man' e := by
  rw [runArrivals_append hrun, runArrivals]
  cases man'.step crypto e <;> simp

section Requested

variable {es : List (ManEnv × ManEvent)} {e : ManEnv × ManEvent} {h : UInt256} {d : ℤ}
  {asked waiting : Finset CNetAddr} {rs : List Arrival}

theorem Requested.snoc (hreq : Requested crypto es man h d asked rs)
    (hstep : man.step crypto e = some man') {rs' : List Arrival}
    (hrs' : rs'.Sublist (eventArrivals man e)) :
    Requested crypto (es ++ [e]) man' h d asked (rs ++ rs') := by
  obtain ⟨es₁, env₀, c, es₂, man₁, man₂, rfl, hrun₁, hman₂, hrun₂, hnone, hsome, hsub⟩ := hreq.made
  refine ⟨es₁, env₀, c, es₂ ++ [e], man₁, man₂, by simp, hrun₁, hman₂, hrun₂.snoc hstep, hnone,
    hsome, ?_⟩
  rw [runArrivals_snoc e hrun₂]
  exact hsub.append hrs'

theorem Requested.forget (hreq : Requested crypto es man h d asked rs) :
    Requested crypto es man h d asked [] := by
  obtain ⟨es₁, env₀, c, es₂, man₁, man₂, hes, hrun₁, hman₂, hrun₂, hnone, hsome, -⟩ := hreq.made
  exact ⟨es₁, env₀, c, es₂, man₁, man₂, hes, hrun₁, hman₂, hrun₂, hnone, hsome,
    List.nil_sublist _⟩

theorem Answers.nil (h : UInt256) (d : ℤ) (asked waiting : Finset CNetAddr) :
    Answers crypto h d asked waiting [] where
  hash := List.forall_mem_nil _
  inTime := List.forall_mem_nil _
  asked := List.forall_mem_nil _
  pending := List.forall_mem_nil _
  newer := List.forall_mem_nil _
  peers := List.nodup_nil

theorem Answers.strike (hans : Answers crypto h d asked waiting rs) (pfrom : CNetAddr) :
    Answers crypto h d asked (waiting.erase pfrom) rs where
  hash := hans.hash
  inTime := hans.inTime
  asked := fun r hr => ⟨(hans.asked r hr).1, fun hmem =>
    (hans.asked r hr).2 (Finset.mem_of_mem_erase hmem)⟩
  pending := hans.pending
  newer := hans.newer
  peers := hans.peers

theorem Answers.snoc (hans : Answers crypto h d asked waiting rs) {r : Arrival}
    (hhash : r.a.read.getHash crypto = h) (htime : r.env.getTime < d)
    (hrequest : r.man.mMnbRecoveryRequests.lookup h = some (d, waiting))
    (hwaiting : r.pfrom ∈ waiting) (hsub : waiting ⊆ asked)
    (hnewer : ∃ seen, r.man.mapSeenMasternodeBroadcast.lookup h = some seen ∧
      seen.2.lastPing.sigTime < r.a.lastPing.sigTime) :
    Answers crypto h d asked (waiting.erase r.pfrom) (rs ++ [r]) := by
  have hstrike := hans.strike r.pfrom
  have hall : ∀ {P : Arrival → Prop}, (∀ r' ∈ rs, P r') → P r → ∀ r' ∈ rs ++ [r], P r' := by
    intro P hrs hr r' hr'
    rcases List.mem_append.mp hr' with hmem | hmem
    · exact hrs r' hmem
    · rwa [List.mem_singleton.mp hmem]
  refine ⟨hall hans.hash hhash, hall hans.inTime htime, hall hstrike.asked ⟨hsub hwaiting, by simp⟩,
    hall hans.pending ⟨waiting, hrequest⟩, hall hans.newer hnewer, ?_⟩
  rw [List.map_append, List.nodup_append']
  refine ⟨hans.peers, List.nodup_singleton _, ?_⟩
  rw [List.map_singleton, List.disjoint_singleton]
  -- whoever has replied is not waited for
  intro hmem
  obtain ⟨r', hr', heq⟩ := List.mem_map.mp hmem
  exact (hans.asked r' hr').2 (heq ▸ hwaiting)

end Requested

/-! ### Replies along a run -/

variable (crypto) in
/-- The replies for each hash are the answers to the pending request, each counted once. -/
structure RepliesCounted (es : List (ManEnv × ManEvent)) (man : CMasternodeMan) : Prop where
  requests : RepliesAsked man
  answers : ∀ h d waiting, man.mMnbRecoveryRequests.lookup h = some (d, waiting) →
    ∃ asked rs, waiting ⊆ asked ∧ Requested crypto es man h d asked rs ∧
      Answers crypto h d asked waiting rs ∧
      (man.mMnbRecoveryGoodReplies.lookup h).getD [] = rs.map fun r => r.a.read

theorem repliesCounted_init : RepliesCounted crypto [] .init where
  requests := fun h _ => AList.lookup_empty h
  answers := by
    intro h d waiting hrequest
    have hnone : CMasternodeMan.init.mMnbRecoveryRequests.lookup h = none := AList.lookup_empty h
    exact absurd (hrequest.symm.trans hnone) (by simp)

section Step

variable {es : List (ManEnv × ManEvent)} {e : ManEnv × ManEvent}

theorem RepliesCounted.same (hcounted : RepliesCounted crypto es man)
    (hstep : man.step crypto e = some man') {h : UInt256} (heq : man'.round h = man.round h)
    {d : ℤ} {waiting : Finset CNetAddr}
    (hrequest : man'.mMnbRecoveryRequests.lookup h = some (d, waiting)) :
    ∃ asked rs, waiting ⊆ asked ∧ Requested crypto (es ++ [e]) man' h d asked rs ∧
      Answers crypto h d asked waiting rs ∧
      (man'.mMnbRecoveryGoodReplies.lookup h).getD [] = rs.map fun r => r.a.read := by
  obtain ⟨hrequests, hreplies⟩ := Prod.mk.inj heq
  rw [hrequests] at hrequest
  obtain ⟨asked, rs, hsub, hreq, hans, hrs⟩ := hcounted.answers h d waiting hrequest
  refine ⟨asked, rs, hsub, ?_, hans, by rw [hreplies, hrs]⟩
  have hsnoc := hreq.snoc hstep (List.nil_sublist _)
  rwa [List.append_nil] at hsnoc

theorem RepliesCounted.announce {pfrom : CNetAddr} {a : MnAnnounce}
    (hcounted : RepliesCounted crypto es man) :
    RepliesCounted crypto (es ++ [(env, .announce pfrom a)])
      (man.processAnnounce crypto env pfrom a) := by
  have hstep : man.step crypto (env, .announce pfrom a) =
    some (man.processAnnounce crypto env pfrom a) := rfl
  have heffect : ∀ h, ReplyEffect crypto ⟨env, man, pfrom, a⟩ h
      ((man.processAnnounce crypto env pfrom a).round h) :=
    fun h => processAnnounce_round ⟨env, man, pfrom, a⟩ h
  generalize man.processAnnounce crypto env pfrom a = man' at hstep heffect ⊢
  constructor
  · intro h hnone
    obtain ⟨x, hx⟩ : ∃ x, man'.round h = x := ⟨_, rfl⟩
    have heffect := heffect h
    rw [hx] at heffect
    cases heffect with
    | same =>
      obtain ⟨hrequests, hreplies⟩ := Prod.mk.inj hx
      rw [hreplies]
      exact hcounted.requests h (hrequests ▸ hnone)
    | replied d waiting counted seen =>
      exact absurd (hnone.symm.trans (congrArg Prod.fst hx)) (by simp)
  · intro h d waiting hrequest
    obtain ⟨x, hx⟩ : ∃ x, man'.round h = x := ⟨_, rfl⟩
    have heffect := heffect h
    rw [hx] at heffect
    cases heffect with
    | same => exact hcounted.same hstep hx hrequest
    | replied d' waiting' counted seen hhash hlookup hseen htime hmem hnewer =>
      obtain ⟨hrequests, hreplies⟩ := Prod.mk.inj hx
      rw [hrequests, Option.some.injEq, Prod.mk.injEq] at hrequest
      obtain ⟨rfl, rfl⟩ := hrequest
      obtain ⟨asked, rs, hsub, hreq, hans, hrs⟩ := hcounted.answers h d' waiting' hlookup
      have hsub' := (Finset.erase_subset pfrom waiting').trans hsub
      cases counted with
      | false =>
        have hsnoc := hreq.snoc hstep (List.nil_sublist _)
        rw [List.append_nil] at hsnoc
        exact ⟨asked, rs, hsub', hsnoc, hans.strike pfrom, by rw [hreplies]; exact hrs⟩
      | true =>
        refine ⟨asked, rs ++ [⟨env, man, pfrom, a⟩], hsub',
          hreq.snoc hstep (List.Sublist.refl _),
          hans.snoc hhash htime hlookup hmem hsub ⟨seen, hseen, hnewer rfl⟩, ?_⟩
        rw [hreplies, if_pos rfl, Option.getD_some, hrs, List.map_append, List.map_singleton]

theorem RepliesCounted.upkeep {c : RemoveEnv} (hrun : ManRun crypto .init es man)
    (hcounted : RepliesCounted crypto es man) :
    RepliesCounted crypto (es ++ [(env, .checkAndRemove c)]) (man.checkAndRemove crypto env c) := by
  have hstep : man.step crypto (env, .checkAndRemove c) =
    some (man.checkAndRemove crypto env c) := rfl
  have heffect : ∀ h, (man.checkAndRemove crypto env c).round h = man.round h ∨
      UpkeepEffect env man h ((man.checkAndRemove crypto env c).round h) := by
    intro h
    cases hsynced : env.isMasternodeListSynced with
    | false =>
      rw [CMasternodeMan.checkAndRemove, hsynced]
      exact .inl rfl
    | true => exact .inr (checkAndRemove_round c hcounted.requests hsynced h)
  obtain ⟨man', hman'⟩ : ∃ man', man' = man.checkAndRemove crypto env c := ⟨_, rfl⟩
  rw [← hman'] at hstep heffect ⊢
  constructor
  · intro h hnone
    rcases heffect h with hsame | heffect
    · obtain ⟨hrequests, hreplies⟩ := Prod.mk.inj hsame
      rw [hreplies]
      exact hcounted.requests h (hrequests ▸ hnone)
    obtain ⟨x, hx⟩ : ∃ x, man'.round h = x := ⟨_, rfl⟩
    rw [hx] at heffect
    obtain ⟨hrequests, hreplies⟩ := Prod.mk.inj hx
    rw [hreplies]
    cases heffect with
    | same => exact hcounted.requests h (hrequests.symm.trans hnone)
    | asked asked habsent => rfl
    | counted d waiting kept => rfl
  · intro h d waiting hrequest
    rcases heffect h with hsame | heffect
    · exact hcounted.same hstep hsame hrequest
    obtain ⟨x, hx⟩ : ∃ x, man'.round h = x := ⟨_, rfl⟩
    rw [hx] at heffect
    obtain ⟨hrequests, hreplies⟩ := Prod.mk.inj hx
    cases heffect with
    | same => exact hcounted.same hstep hx hrequest
    | asked asked habsent =>
      have hmade := hrequests.symm.trans hrequest
      obtain ⟨rfl, rfl⟩ := Prod.mk.inj (Option.some.inj hmade)
      refine ⟨asked, [], subset_rfl, ⟨es, env, c, [], man, man', rfl, hrun, hman', .nil _, habsent,
        hrequest, List.nil_sublist _⟩, .nil h _ asked asked, ?_⟩
      rw [hreplies]
      rfl
    | counted d' waiting' kept hlookup hlate =>
      have hkept := hrequests.symm.trans hrequest
      split_ifs at hkept
      obtain ⟨rfl, rfl⟩ := Prod.mk.inj (Option.some.inj hkept)
      obtain ⟨asked, rs, hsub, hreq, -, -⟩ := hcounted.answers h d' waiting' hlookup
      have hsnoc := hreq.forget.snoc hstep (List.nil_sublist _)
      refine ⟨asked, [], hsub, hsnoc, .nil h d' asked waiting', ?_⟩
      rw [hreplies]
      rfl

end Step

theorem repliesCounted_run {es : List (ManEnv × ManEvent)} (hrun : ManRun crypto .init es man) :
    RepliesCounted crypto es man := by
  refine Runs.Run.history (I := RepliesCounted crypto) ?_ hrun repliesCounted_init
  rintro es man ⟨env, e⟩ man' hrun hcounted hstep
  have hstep' : man.step crypto (env, e) = some man' := hstep
  have hquiet : man'.recovery = man.recovery → RepliesCounted crypto (es ++ [(env, e)]) man' := by
    intro heq
    obtain ⟨hrequests, hreplies⟩ := Prod.mk.inj heq
    constructor
    · intro h hnone
      rw [hreplies]
      exact hcounted.requests h (hrequests ▸ hnone)
    · intro h d waiting hrequest
      exact hcounted.same hstep' (round_eq heq h) hrequest
  cases e with
  | announce pfrom a =>
    obtain rfl := Option.some.inj hstep'
    exact hcounted.announce
  | ping mnp =>
    obtain rfl := Option.some.inj hstep'
    exact hquiet (processPing_recovery mnp)
  | verify v mnv => exact hquiet (processVerify_recovery hstep')
  | checkAndRemove c =>
    obtain rfl := Option.some.inj hstep'
    exact hcounted.upkeep hrun

/-! ### Calls in recovery mode -/

theorem mem_recoverCalls {call : MnbCall} :
    ∀ {es : List (Sigma fun _ : UInt256 => List CMasternodeBroadcast)} {man : CMasternodeMan},
      (∀ e ∈ es, (man.mMnbRecoveryRequests.lookup e.1).isSome = true) →
      call ∈ recoverCalls crypto env man es →
      ∃ e ∈ es, man.reprocessed env e = some call.mnb
  | [], _, _, hcall => absurd hcall List.not_mem_nil
  | e :: es, man, hasked, hcall => by
    rw [recoverCalls, List.mem_append] at hcall
    rcases hcall with hfirst | hrest
    · obtain ⟨mnb, hmnb, rfl⟩ := List.mem_map.mp hfirst
      exact ⟨e, List.mem_cons_self, Option.mem_toList.mp hmnb⟩
    · have hrecovery : (man.recover crypto env e).recovery = _ :=
        recover_recovery (hasked e List.mem_cons_self)
      have hrequests := congrArg Prod.fst hrecovery
      have hasked' : ∀ e' ∈ es,
          ((man.recover crypto env e).mMnbRecoveryRequests.lookup e'.1).isSome = true := by
        intro e' he'
        rw [show (man.recover crypto env e).mMnbRecoveryRequests = _ from hrequests]
        exact hasked e' (List.mem_cons_of_mem e he')
      obtain ⟨e', he', hmnb⟩ := mem_recoverCalls hasked' hrest
      refine ⟨e', List.mem_cons_of_mem e he', ?_⟩
      rw [CMasternodeMan.reprocessed] at hmnb ⊢
      rwa [show (man.recover crypto env e).mMnbRecoveryRequests = _ from hrequests] at hmnb

variable (crypto) in
/-- Enough peers that were asked have replied to the request for a hash, which is over. -/
def HasQuorum (es : List (ManEnv × ManEvent)) (env : ManEnv) (man : CMasternodeMan)
    (h : UInt256) : Prop :=
  ∃ d asked waiting rs, man.mMnbRecoveryRequests.lookup h = some (d, waiting) ∧
    Requested crypto es man h d asked rs ∧ Answers crypto h d asked waiting rs ∧
    d < env.getTime ∧ MNB_RECOVERY_QUORUM_REQUIRED ≤ rs.length ∧
    man.mMnbRecoveryGoodReplies.lookup h = some (rs.map fun r => r.a.read)

/-- **Recovery needs a quorum**: in every run, an announcement is taken up in recovery mode only
with the replies of enough different peers that were asked for it, and the replies are dropped
as soon as the wait for them is over. -/
theorem recovery_needs_quorum {es : List (ManEnv × ManEvent)} (hrun : ManRun crypto .init es man)
    (e : ManEnv × ManEvent) :
    (∀ call ∈ eventCalls crypto man e, call.mnb.fRecovery = true →
      HasQuorum crypto es e.1 man (call.mnb.getHash crypto)) ∧
    ∀ c, e.2 = .checkAndRemove c → e.1.isMasternodeListSynced = true →
      ∀ h d waiting, man.mMnbRecoveryRequests.lookup h = some (d, waiting) → d < e.1.getTime →
        (man.checkAndRemove crypto e.1 c).mMnbRecoveryGoodReplies.lookup h = none := by
  have hcounted := repliesCounted_run hrun
  obtain ⟨env, e⟩ := e
  refine ⟨fun call hcall hrecovery => ?_, fun c he hsynced h d waiting hrequest hlate => ?_⟩
  · cases e with
    | announce pfrom a =>
      simp only [eventCalls] at hcall
      split_ifs at hcall
      · exact absurd hcall List.not_mem_nil
      · -- what a peer sends is not in recovery mode
        rw [List.mem_singleton.mp hcall] at hrecovery
        exact absurd hrecovery (by simp [MnAnnounce.read])
    | ping mnp => exact absurd hcall List.not_mem_nil
    | verify v mnv => exact absurd hcall List.not_mem_nil
    | checkAndRemove c =>
      simp only [eventCalls] at hcall
      split_ifs at hcall with hsynced
      · exact absurd hcall List.not_mem_nil
      have hspent : RepliesAsked (man.removeSpent crypto env c) ∧ _ :=
        removeSpent_asked c hcounted.requests
      obtain ⟨hasked, hreplies⟩ := hspent
      obtain ⟨⟨h, mnbs⟩, he, hmnb⟩ := mem_recoverCalls (iterate_asked hasked) hcall
      rw [mem_iterate, ← AList.mem_lookup_iff, Option.mem_def, hreplies h] at he
      cases hrequest : man.mMnbRecoveryRequests.lookup h with
      | none => exact absurd (he.symm.trans (hcounted.requests h hrequest)) (by simp)
      | some request =>
        obtain ⟨d, waiting⟩ := request
        have hround : (man.removeSpent crypto env c).round h = man.round h ∨ _ :=
          removeSpent_round c h
        have hrequest' : (man.removeSpent crypto env c).mMnbRecoveryRequests.lookup h =
            some (d, waiting) := by
          rcases hround with hsame | ⟨habsent, -⟩
          · exact (congrArg Prod.fst hsame).trans hrequest
          · exact absurd (habsent.symm.trans hrequest) (by simp)
        rw [CMasternodeMan.reprocessed, hrequest'] at hmnb
        split_ifs at hmnb with hready
        obtain ⟨asked, rs, -, hreq, hans, hrs⟩ := hcounted.answers h d waiting hrequest
        rw [he, Option.getD_some] at hrs
        subst hrs
        rw [List.head?_map] at hmnb
        obtain ⟨mnb, hhead, heq⟩ := Option.map_eq_some_iff.mp hmnb
        obtain ⟨r, hr, rfl⟩ := Option.map_eq_some_iff.mp hhead
        have hhash : call.mnb.getHash crypto = h := by
          rw [← heq]
          exact hans.hash r (List.mem_of_mem_head? hr)
        rw [List.length_map] at hready
        rw [hhash]
        exact ⟨d, asked, waiting, rs, hrequest, hreq, hans, hready.1, hready.2, he⟩
  · have heffect : UpkeepEffect env man h ((man.checkAndRemove crypto env c).round h) :=
      checkAndRemove_round c hcounted.requests hsynced h
    obtain ⟨x, hx⟩ : ∃ x, (man.checkAndRemove crypto env c).round h = x := ⟨_, rfl⟩
    rw [hx] at heffect
    have hreplies := congrArg Prod.snd hx
    cases heffect with
    | same hwait => exact absurd hlate (hwait _ hrequest)
    | asked asked habsent => exact absurd (habsent.symm.trans hrequest) (by simp)
    | counted d' waiting' kept => exact hreplies

def envAt (t : ℤ) : ManEnv := { banEnv with getTime := t, getAdjustedTime := t }

def askSeven : ManEvent := .checkAndRemove ⟨some 1000, fun _ => {[1], [2], [3], [4], [5], [6], [7]}⟩

/-- A masternode is announced with an old ping, peers are asked, and six of them reply. -/
def repliedRun : List (ManEnv × ManEvent) :=
  (envAt 1500000000, .announce [] (banAnnounce 1490000600)) :: (envAt 1500000000, askSeven) ::
    [[1], [2], [3], [4], [5], [6]].map fun pfrom =>
      (envAt 1500000001, .announce pfrom (banAnnounce 1500000000))

/-- The state after these. -/
def repliedByPeers : CMasternodeMan :=
  repliedRun.foldl (fun man e => (man.step keyCrypto e).getD man) .init

theorem recovery_needs_quorum_six : ManRun keyCrypto .init repliedRun repliedByPeers ∧
    ∃ call, eventCalls keyCrypto repliedByPeers (envAt 1500000061, askSeven) = [call] ∧
      call.mnb.fRecovery = true ∧ HasQuorum keyCrypto repliedRun (envAt 1500000061) repliedByPeers
        (call.mnb.getHash keyCrypto) := by
  have hrun : ManRun keyCrypto .init repliedRun repliedByPeers :=
    .cons rfl (.cons rfl (.cons rfl (.cons rfl (.cons rfl (.cons rfl (.cons rfl (.cons rfl
      (.nil _))))))))
  have hmode : (eventCalls keyCrypto repliedByPeers (envAt 1500000061, askSeven)).map
      (fun call => call.mnb.fRecovery) = [true] := by decide +kernel
  obtain ⟨call, hcalls, hrecovery⟩ := List.map_eq_singleton_iff.mp hmode
  exact ⟨hrun, call, hcalls, hrecovery, (recovery_needs_quorum hrun _).1 call
    (hcalls ▸ List.mem_singleton_self call) hrecovery⟩

end Stonecoin
