/-
The pings that masternodes are stored with.

The signature of an announcement does not cover its ping.  A new masternode is stored with the
ping of its announcement as it is; an update with another key leaves the old ping when it
refuses the new one; and the ping of an announcement may name another masternode.  As long as
this does not happen (`MnbCall.PingOk`), every stored ping is empty or signed by the key of
its masternode (`pings_authentic`).
-/
import Stonecoin.CollateralOwnership

namespace Stonecoin

open MasternodeState

variable (crypto : MasternodeCrypto)

/-- The last ping names the masternode, and its signature verifies under its key. -/
def CMasternode.Authentic (mn : CMasternode) : Prop :=
  mn.lastPing.vin = mn.vin ∧ mn.lastPing.checkSignature crypto mn.pubKeyMasternode = true

/-- **Stored pings are authentic**, or empty; enabled masternodes have an authentic one. -/
def PingsAuthentic (man : CMasternodeMan) : Prop :=
  ∀ mn ∈ man.vMasternodes, (mn.lastPing.isEmpty = true ∨ mn.Authentic crypto) ∧
    (mn.isEnabled = true → mn.Authentic crypto)

/-! ### The conditions -/

/-- An empty ping dated so that it does not count as ten minutes of work. -/
def CMasternodeBroadcast.EmptyPingOk (mnb : CMasternodeBroadcast) : Prop :=
  mnb.lastPing.isEmpty = true →
    mnb.lastPing.sigTime - mnb.sigTime < MASTERNODE_MIN_MNP_SECONDS

/-- A new masternode comes with an empty ping or one of its own. -/
def CMasternodeBroadcast.EnlistOk (mnb : CMasternodeBroadcast) : Prop :=
  mnb.EmptyPingOk ∧ (mnb.lastPing.isEmpty = false → mnb.toCMasternode.Authentic crypto)

/-- An update with an empty ping is followed by a check of an enabled masternode; one with
another key, where there is a ping, comes with a ping that is accepted; and accepted pings
name the masternode. -/
structure CMasternodeBroadcast.RenewOk (env : ManEnv) (pmn : CMasternode)
    (mnb : CMasternodeBroadcast) : Prop where
  emptyPing : mnb.EmptyPingOk
  checked : mnb.lastPing.isEmpty = true → pmn.isEnabled = true →
    env.shutdownRequested = false ∧ MASTERNODE_CHECK_SECONDS ≤ env.getTime ∧
      (env.fMasterNode = true → mnb.pubKeyMasternode = env.activePubKeyMasternode →
        mnb.nProtocolVersion = PROTOCOL_VERSION)
  accepted : mnb.lastPing.isEmpty = false →
    mnb.lastPing.accepted crypto env (pmn.renewed mnb) true = true → mnb.lastPing.vin = pmn.vin
  refused : mnb.lastPing.isEmpty = false →
    mnb.lastPing.accepted crypto env (pmn.renewed mnb) true = false →
    pmn.Authentic crypto → mnb.pubKeyMasternode = pmn.pubKeyMasternode

/-- The condition on an announcement. -/
structure MnbCall.PingOk (call : MnbCall) : Prop where
  enlist : call.man.find call.mnb.vin = none →
    (call.mnb.marked call.env).checkOutpoint crypto call.env = .valid →
    call.mnb.EnlistOk crypto
  renew : ∀ i pmn, call.man.find call.mnb.vin = some (i, pmn) →
    call.mnb.renews crypto call.env call.man.size pmn = true →
    call.mnb.RenewOk crypto call.env (pmn.check call.env call.man.size false)

/-- The condition on a ping: one that is accepted has the whole vin of its masternode. -/
def CMasternodePing.NamesMasternode (env : ManEnv) (man : CMasternodeMan)
    (mnp : CMasternodePing) : Prop :=
  ∀ i pmn, man.find mnp.vin = some (i, pmn) → mnp.accepted crypto env pmn false = true →
    mnp.vin = pmn.vin

/-! ### Checks -/

/-- What is kept: an empty ping is not dated late, and its masternode is not enabled. -/
def CMasternode.PingSound (mn : CMasternode) : Prop :=
  (mn.lastPing.isEmpty = true ∧ mn.isEnabled = false ∧
    mn.lastPing.sigTime - mn.sigTime < MASTERNODE_MIN_MNP_SECONDS) ∨ mn.Authentic crypto

variable {crypto} {env : ManEnv} {man : CMasternodeMan} {mn mn' pmn : CMasternode}

namespace CMasternode

theorem Authentic.of_upkeep (h : mn.Authentic crypto) (hmn : mn.Upkeep mn') :
    mn'.Authentic crypto := by
  rw [Authentic, hmn.lastPing, hmn.vin, hmn.pubKeyMasternode]
  exact h

theorem checkState_enabled
    (hdate : mn.lastPing.sigTime - mn.sigTime < MASTERNODE_MIN_MNP_SECONDS) :
    mn.checkState env ≠ MASTERNODE_ENABLED := by
  intro henabled
  simp only [checkState] at henabled
  split_ifs at henabled with hupdate hwait
  -- the state that is left while a ping is waited for is not enabled either
  simp only [Bool.and_eq_true, Bool.or_eq_true] at hwait
  rw [isExpired, isWatchdogExpired, isNewStartRequired, henabled] at hwait
  simp at hwait

theorem check_enabled {n : ℕ} {fForce : Bool} (h : (mn.check env n fForce).isEnabled = true) :
    mn.isEnabled = true ∧ (env.shutdownRequested = true ∨
        env.getTime - mn.nTimeLastChecked < MASTERNODE_CHECK_SECONDS) ∨
      ∃ mn', mn.Upkeep mn' ∧ mn'.checkState env = MASTERNODE_ENABLED := by
  have hchecked : mn.Upkeep { mn with nTimeLastChecked := env.getTime } :=
    ⟨rfl, rfl, rfl, rfl, rfl, rfl, rfl, rfl⟩
  have hscore := hchecked.trans (decreasePoSeBanScore_upkeep _)
  simp only [check] at h
  split_ifs at h with hshutdown hrecent hspent hcoins hbanned hheight
  · exact .inl ⟨h, .inl hshutdown⟩
  · simp only [Bool.and_eq_true, decide_eq_true_eq] at hrecent
    exact .inl ⟨h, .inr hrecent.2⟩
  · simp_all [isEnabled, isOutpointSpent]
  · simp [isEnabled] at h
  · simp_all [isEnabled, isPoSeBanned]
  · exact .inr ⟨_, hscore, by simpa [isEnabled] using h⟩
  · simp [isEnabled] at h
  · exact .inr ⟨_, hchecked, by simpa [isEnabled] using h⟩

theorem check_not_enabled {n : ℕ} {fForce : Bool}
    (hdate : mn.lastPing.sigTime - mn.sigTime < MASTERNODE_MIN_MNP_SECONDS)
    (hrun : mn.isEnabled = true → env.shutdownRequested = false ∧
      MASTERNODE_CHECK_SECONDS ≤ env.getTime - mn.nTimeLastChecked) :
    (mn.check env n fForce).isEnabled = false := by
  rw [← Bool.not_eq_true]
  intro henabled
  rcases check_enabled henabled with ⟨hwas, hearly⟩ | ⟨mn', hmn', hstate⟩
  · obtain ⟨hrunning, htime⟩ := hrun hwas
    rcases hearly with hshutdown | hrecent
    · rw [hrunning] at hshutdown
      exact Bool.noConfusion hshutdown
    · omega
  · refine checkState_enabled ?_ hstate
    rw [hmn'.lastPing, hmn'.sigTime]
    exact hdate

namespace PingSound

theorem check (h : mn.PingSound crypto) (n : ℕ) (fForce : Bool) :
    (mn.check env n fForce).PingSound crypto := by
  have hup : mn.Upkeep (mn.check env n fForce) := check_upkeep n fForce mn
  rcases h with ⟨hempty, hdisabled, hdate⟩ | h
  · refine .inl ⟨?_, check_not_enabled hdate fun henabled => ?_, ?_⟩
    · rw [hup.lastPing]
      exact hempty
    · rw [hdisabled] at henabled
      exact Bool.noConfusion henabled
    · rw [hup.lastPing, hup.sigTime]
      exact hdate
  · exact .inr (h.of_upkeep hup)

theorem scored (h : mn.PingSound crypto) (hmn : mn.Scored mn') : mn'.PingSound crypto := by
  obtain ⟨score, rfl⟩ := hmn
  exact h

end PingSound

end CMasternode

/-! ### Pings -/

theorem checkSignature_of_accepted {mnp : CMasternodePing} {fFromNewBroadcast : Bool}
    (h : mnp.accepted crypto env pmn fFromNewBroadcast = true) :
    mnp.checkSignature crypto pmn.pubKeyMasternode = true := by
  rw [CMasternodePing.accepted] at h
  split_ifs at h
  exact h

variable (man) in
theorem checkAndUpdate_sound {mnp : CMasternodePing} {fFromNewBroadcast : Bool}
    (hpmn : mnp.accepted crypto env pmn fFromNewBroadcast = false → pmn.PingSound crypto)
    (hnames : mnp.accepted crypto env pmn fFromNewBroadcast = true → mnp.vin = pmn.vin) :
    (mnp.checkAndUpdate crypto env man pmn fFromNewBroadcast).2.1.PingSound crypto := by
  rw [CMasternodePing.checkAndUpdate]
  split_ifs with hrefused
  · exact hpmn (by simpa using hrefused)
  · have haccepted : mnp.accepted crypto env pmn fFromNewBroadcast = true := by
      simpa using hrefused
    have hsigned := checkSignature_of_accepted haccepted
    have htaken : ({ pmn with lastPing := mnp } : CMasternode).Authentic crypto :=
      ⟨hnames haccepted, hsigned⟩
    exact .check (.inr htaken) _ true

theorem takePing_sound {mnp : CMasternodePing} (hempty : mnp.isEmpty = false)
    (hpmn : mnp.accepted crypto env pmn true = false → pmn.PingSound crypto)
    (hnames : mnp.accepted crypto env pmn true = true → mnp.vin = pmn.vin) :
    (pmn.takePing crypto env man mnp).2.PingSound crypto := by
  rw [takePing_of_not_empty pmn hempty]
  exact checkAndUpdate_sound man hpmn hnames

/-! ### Announcements -/

theorem renewed_sound {mnb : CMasternodeBroadcast} (h : pmn.PingSound crypto)
    (hdate : pmn.sigTime ≤ mnb.sigTime)
    (hkey : pmn.Authentic crypto → mnb.pubKeyMasternode = pmn.pubKeyMasternode) :
    (pmn.renewed mnb).PingSound crypto := by
  rcases h with ⟨hempty, hdisabled, hearly⟩ | h
  · refine .inl ⟨hempty, hdisabled, ?_⟩
    show pmn.lastPing.sigTime - mnb.sigTime < MASTERNODE_MIN_MNP_SECONDS
    omega
  · refine .inr ⟨h.1, ?_⟩
    show pmn.lastPing.checkSignature crypto mnb.pubKeyMasternode = true
    rw [hkey h]
    exact h.2

variable (man) in
theorem updateFromNewBroadcast_sound {mnb : CMasternodeBroadcast}
    (hok : mnb.RenewOk crypto env pmn) (hempty : mnb.lastPing.isEmpty = false)
    (hdate : pmn.sigTime ≤ mnb.sigTime) (h : pmn.PingSound crypto) :
    (pmn.updateFromNewBroadcast crypto env man mnb).2.1.PingSound crypto := by
  have htaken : ((pmn.renewed mnb).takePing crypto env man mnb.lastPing).2.PingSound crypto :=
    takePing_sound hempty (fun hrefused => renewed_sound h hdate (hok.refused hempty hrefused))
      (hok.accepted hempty)
  simp only [CMasternode.updateFromNewBroadcast]
  split_ifs
  · exact h
  · exact htaken.scored ⟨_, rfl⟩
  · exact htaken

theorem updateFromNewBroadcast_check {mnb : CMasternodeBroadcast} (n : ℕ)
    (hok : mnb.RenewOk crypto env pmn) (hempty : mnb.lastPing.isEmpty = true)
    (h : pmn.PingSound crypto) :
    (if (pmn.updateFromNewBroadcast crypto env man mnb).2.2 then
        (pmn.updateFromNewBroadcast crypto env man mnb).2.1.check env n false
      else (pmn.updateFromNewBroadcast crypto env man mnb).2.1).PingSound crypto := by
  -- a masternode renewed with an empty ping, with any score
  have hcheck : ∀ score, (CMasternode.check env n false
      { pmn.renewed mnb with lastPing := mnb.lastPing, nPoSeBanScore := score }).PingSound
        crypto := by
    intro score
    have hup : CMasternode.Upkeep _ (CMasternode.check env n false
        { pmn.renewed mnb with lastPing := mnb.lastPing, nPoSeBanScore := score }) :=
      CMasternode.check_upkeep n false _
    refine .inl ⟨?_, CMasternode.check_not_enabled (hok.emptyPing hempty) fun henabled => ?_, ?_⟩
    · rw [hup.lastPing]
      exact hempty
    · obtain ⟨hrunning, htime, -⟩ := hok.checked hempty henabled
      exact ⟨hrunning, by simpa [CMasternode.renewed] using htime⟩
    · rw [hup.lastPing, hup.sigTime]
      exact hok.emptyPing hempty
  -- where no check follows, the masternode was not enabled before
  have hother : ∀ score, pmn.isEnabled = false →
      (CMasternode.PingSound crypto
        { pmn.renewed mnb with lastPing := mnb.lastPing, nPoSeBanScore := score }) :=
    fun score hdisabled => .inl ⟨hempty, hdisabled, hok.emptyPing hempty⟩
  simp only [CMasternode.updateFromNewBroadcast, CMasternode.takePing, hempty, if_true]
  by_cases hold : (decide (mnb.sigTime ≤ pmn.sigTime) && !mnb.fRecovery) = true
  · rw [if_pos hold]
    exact h
  · rw [if_neg hold]
    by_cases hours : (env.fMasterNode && decide (mnb.pubKeyMasternode =
        env.activePubKeyMasternode)) = true
    · have hours' : (env.fMasterNode && decide ((pmn.renewed mnb).pubKeyMasternode =
          env.activePubKeyMasternode)) = true := hours
      rw [if_pos hours']
      split_ifs with hprotocol
      · exact hcheck _
      · refine hother _ (Bool.eq_false_iff.mpr fun henabled => hprotocol (decide_eq_true ?_))
        obtain ⟨-, -, hversion⟩ := hok.checked hempty henabled
        simp only [Bool.and_eq_true, decide_eq_true_eq] at hours
        exact hversion hours.1 hours.2
    · have hours' : ¬ (env.fMasterNode && decide ((pmn.renewed mnb).pubKeyMasternode =
          env.activePubKeyMasternode)) = true := hours
      rw [if_neg hours', if_pos rfl]
      exact hcheck _

theorem updateFromNewBroadcast_then_check {mnb : CMasternodeBroadcast} (n : ℕ)
    (hok : mnb.RenewOk crypto env pmn) (hdate : pmn.sigTime ≤ mnb.sigTime)
    (h : pmn.PingSound crypto) :
    (if (pmn.updateFromNewBroadcast crypto env man mnb).2.2 then
        (pmn.updateFromNewBroadcast crypto env man mnb).2.1.check env n false
      else (pmn.updateFromNewBroadcast crypto env man mnb).2.1).PingSound crypto := by
  cases hempty : mnb.lastPing.isEmpty with
  | true => exact updateFromNewBroadcast_check n hok hempty h
  | false =>
    have hafter := updateFromNewBroadcast_sound man hok hempty hdate h
    split_ifs
    · exact hafter.check n false
    · exact hafter

theorem update_sound {mnb : CMasternodeBroadcast} (h : pmn.PingSound crypto)
    (hok : mnb.renews crypto env man.size pmn = true →
      mnb.RenewOk crypto env (pmn.check env man.size false)) :
    (mnb.update crypto env man pmn).2.1.PingSound crypto := by
  cases hrenews : mnb.renews crypto env man.size pmn with
  | false =>
    rcases update_of_not_renews hrenews with heq | heq
    · rw [heq]
      exact h
    · rw [heq]
      exact h.check _ _
  | true =>
    have hdate : (pmn.check env man.size false).sigTime ≤ mnb.sigTime := by
      rw [(CMasternode.check_upkeep _ _ _).sigTime]
      exact sigTime_of_renews hrenews
    obtain ⟨n, heq⟩ := update_of_renews hrenews
    rw [heq]
    exact updateFromNewBroadcast_then_check n (hok hrenews) hdate (h.check _ _)

theorem update_marked (mnb : CMasternodeBroadcast) :
    (mnb.marked env).update crypto env man pmn = mnb.update crypto env man pmn := by
  rw [CMasternodeBroadcast.marked]
  split_ifs <;> rfl

theorem enlisted_sound {mnb : CMasternodeBroadcast} (hok : mnb.EnlistOk crypto) :
    (mnb.marked env).toCMasternode.PingSound crypto := by
  rw [CMasternodeBroadcast.marked]
  cases hempty : mnb.lastPing.isEmpty with
  | true => exact .inl ⟨hempty, rfl, hok.1 hempty⟩
  | false =>
    refine .inr ?_
    split_ifs
    · exact hok.2 hempty
    · exact hok.2 hempty

/-! ### The list -/

theorem pingSound_set {mns : List CMasternode} (h : ∀ mn ∈ mns, mn.PingSound crypto)
    (hmn : mn.PingSound crypto) (i : ℕ) : ∀ mn' ∈ mns.set i mn, mn'.PingSound crypto := by
  intro mn' hmn'
  rcases List.mem_or_eq_of_mem_set hmn' with hmem | rfl
  · exact h mn' hmem
  · exact hmn

theorem pingSound_invariant :
    ListInvariant crypto (fun mns => ∀ mn ∈ mns, mn.PingSound crypto)
      (fun call => call.PingOk crypto) (fun env man mnp => mnp.NamesMasternode crypto env man) where
  score := by
    intro mns mns' hscored h
    induction hscored with
    | nil => exact h
    | cons hmn _ ih =>
      rw [List.forall_mem_cons] at h ⊢
      exact ⟨h.1.scored hmn, ih h.2⟩
  check := by
    intro env n mns h mn hmn
    obtain ⟨mn₀, hmn₀, rfl⟩ := List.mem_map.mp hmn
    exact (h mn₀ hmn₀).check n false
  sublist := fun _ _ hsub h mn hmn => h mn (hsub.subset hmn)
  mnb := by
    rintro ⟨env, man, pfrom, mnb⟩ hok h
    have heffect := checkMnb_effect crypto env man mnb pfrom
    rw [MnbCall.result]
    dsimp only
    generalize (man.checkMnbAndUpdateMasternodeList crypto env pfrom mnb).1.vMasternodes = mns
      at heffect ⊢
    cases heffect with
    | same => exact h
    | renewed man₁ i pmn hman₁ hfind =>
      have hsize : man₁.size = man.size := congrArg List.length hman₁
      refine pingSound_set h ?_ i
      rw [update_marked]
      refine update_sound (h pmn (List.mem_of_getElem? (CMasternodeMan.find_eq_some hfind).1)) ?_
      rw [hsize]
      exact hok.renew i pmn hfind
    | enlisted hnew hvalid =>
      intro mn hmn
      rcases List.mem_append.mp hmn with hmem | hmem
      · exact h mn hmem
      · obtain rfl := List.mem_singleton.mp hmem
        exact enlisted_sound (hok.enlist hnew hvalid)
  ping := by
    intro env man man₁ mnp i pmn hnames h hfind
    have hpmn := h pmn (List.mem_of_getElem? (CMasternodeMan.find_eq_some hfind).1)
    exact pingSound_set h (checkAndUpdate_sound man₁ (fun _ => hpmn) (hnames i pmn hfind)) i

/-- **Stored pings are authentic** in every run whose announcements and pings meet the
conditions. -/
theorem pings_authentic {es : List (ManEnv × ManEvent)} (hrun : ManRun crypto .init es man)
    (hcalls : ∀ call ∈ runCalls crypto .init es, call.PingOk crypto)
    (hpings : ∀ p ∈ runPings crypto .init es, p.2.2.NamesMasternode crypto p.1 p.2.1) :
    PingsAuthentic crypto man := by
  have hend := pingSound_invariant.run hrun hcalls hpings (fun mn hmn => absurd hmn List.not_mem_nil)
  intro mn hmn
  rcases hend mn hmn with ⟨hempty, hdisabled, -⟩ | hauthentic
  · refine ⟨.inl hempty, fun henabled => ?_⟩
    rw [hdisabled] at henabled
    exact Bool.noConfusion henabled
  · exact ⟨.inr hauthentic, fun _ => hauthentic⟩

/-! ### Announcements with a ping -/

/-- The block 6 is recent. -/
def pingEnv : ManEnv :=
  { twoOwnersEnv with
    mapBlockIndex := fun hash => if hash = 5 then some 100 else if hash = 6 then some 990 else none }

/-- The masternode `(9, 1)` is announced with a ping that is signed by a key, and pings. -/
def pingRun (vchSig : List UInt8) : List (ManEnv × ManEvent) :=
  [(pingEnv, .announce [] { announceOutput 1 with
      lastPing := ⟨⟨⟨9, 1⟩, [], 4294967295⟩, 6, 1490000600, vchSig⟩ }),
    (pingEnv, .ping ⟨⟨⟨9, 1⟩, [], 4294967295⟩, 6, 1500000000, vchSig⟩)]

/-- The state after both. -/
def pinged (vchSig : List UInt8) : CMasternodeMan :=
  (pingRun vchSig).foldl (fun man e => (man.step keyCrypto e).getD man) .init

theorem pings_authentic_two : ManRun keyCrypto .init (pingRun [3]) (pinged [3]) ∧
    (∀ call ∈ runCalls keyCrypto .init (pingRun [3]), call.PingOk keyCrypto) ∧
    (∀ p ∈ runPings keyCrypto .init (pingRun [3]),
      p.2.2.NamesMasternode keyCrypto p.1 p.2.1) ∧
    (pinged [3]).vMasternodes.map (fun mn => (mn.isEnabled, mn.lastPing.sigTime)) =
      [(true, 1500000000)] ∧
    PingsAuthentic keyCrypto (pinged [3]) := by
  have hrun : ManRun keyCrypto .init (pingRun [3]) (pinged [3]) := .cons rfl (.cons rfl (.nil _))
  have hcalls : ∀ call ∈ runCalls keyCrypto .init (pingRun [3]), call.PingOk keyCrypto := by
    intro call hcall
    obtain rfl := List.mem_singleton.mp hcall
    refine ⟨fun _ _ => ⟨fun hempty => absurd hempty (by decide +kernel), fun _ => ⟨rfl, rfl⟩⟩, ?_⟩
    intro i pmn hfind
    simp [CMasternodeMan.find, CMasternodeMan.init] at hfind
  have hpings : ∀ p ∈ runPings keyCrypto .init (pingRun [3]),
      p.2.2.NamesMasternode keyCrypto p.1 p.2.1 := by
    intro p hp
    obtain rfl := List.mem_singleton.mp hp
    intro i pmn hfind _
    obtain ⟨-, rfl⟩ := Prod.mk.inj (Option.some.inj hfind)
    rfl
  exact ⟨hrun, hcalls, hpings, by decide +kernel, pings_authentic hrun hcalls hpings⟩

/-- **A masternode is enabled with a ping that nobody signed.** -/
theorem unsigned_ping_stored : ManRun keyCrypto .init (pingRun []) (pinged []) ∧
    (pinged []).vMasternodes.map (fun mn => (mn.isEnabled, mn.lastPing.vchSig)) = [(true, [])] ∧
    ¬ PingsAuthentic keyCrypto (pinged []) := by
  have hlist : (pinged []).vMasternodes.map
      (fun mn => (mn.isEnabled, mn.lastPing.vchSig, mn.pubKeyMasternode)) = [(true, [], [3])] := by
    decide +kernel
  refine ⟨.cons rfl (.cons rfl (.nil _)), by decide +kernel, fun h => ?_⟩
  obtain ⟨mn, hmn, heq⟩ := List.mem_map.mp
    (show (true, [], [3]) ∈ (pinged []).vMasternodes.map
      (fun mn => (mn.isEnabled, mn.lastPing.vchSig, mn.pubKeyMasternode)) by rw [hlist]; simp)
  obtain ⟨henabled, hsig, hkey⟩ := by simpa using heq
  have hsigned := ((h mn hmn).2 henabled).2
  simp [CMasternodePing.checkSignature, keyCrypto, hsig, hkey] at hsigned

end Stonecoin
