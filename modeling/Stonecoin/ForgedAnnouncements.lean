/-
Announcements and pings with forged ones among them.

Two nodes start alike and receive the same messages, one of them forged ones as well.  A
message is marked as seen before its signature is looked at, and what is seen is the hash of a
few of its members, so a forged message can have the masternode's own dropped
(`forged_announcement_suppresses`).  A forged announcement also has its masternode checked.
As long as a message that both receive meets the same gates at both of them (`Admitted`), both
record the same (`forged_messages_harmless`).
-/
import Stonecoin.StoredPings

namespace Stonecoin

variable (crypto : MasternodeCrypto)

inductive MnMessage
  | announce (pfrom : CNetAddr) (a : MnAnnounce)
  | ping (mnp : CMasternodePing)

/-- A message on its way, and whether only the second node receives it. -/
structure MnReceived where
  forged : Bool
  env : ManEnv
  message : MnMessage

/-- `ProcessMessage`. -/
def CMasternodeMan.receive (man : CMasternodeMan) (r : MnReceived) : CMasternodeMan :=
  match r.message with
  | .announce pfrom a => man.processAnnounce crypto r.env pfrom a
  | .ping mnp => man.processPing crypto r.env mnp

/-- The signature of a message does not verify: that of an announcement under its collateral
key, that of a ping under the key of the masternode it names. -/
def MnReceived.Unsigned (man : CMasternodeMan) (r : MnReceived) : Prop :=
  match r.message with
  | .announce _ a => a.read.checkSignature crypto = false
  | .ping mnp => ∀ i pmn, man.find mnp.vin = some (i, pmn) →
      mnp.checkSignature crypto pmn.pubKeyMasternode = false

def AllUnsigned : CMasternodeMan → List MnReceived → Prop
  | _, [] => True
  | man, r :: rs =>
    (r.forged = true → r.Unsigned crypto man) ∧ AllUnsigned (man.receive crypto r) rs

/-- **Nothing is suppressed**: after each message of the first node, the second has a
masternode with the same announced members and the same ping for each one of the first. -/
def NotSuppressed : CMasternodeMan → CMasternodeMan → List MnReceived → Prop
  | _, _, [] => True
  | man₁, man₂, r :: rs =>
    if r.forged then NotSuppressed man₁ (man₂.receive crypto r) rs
    else
      (∀ mn ∈ (man₁.receive crypto r).vMasternodes,
        ∃ mn' ∈ (man₂.receive crypto r).vMasternodes, mn.Upkeep mn') ∧
      NotSuppressed (man₁.receive crypto r) (man₂.receive crypto r) rs

/-! ### Gates -/

/-- The announcement is not newer than the masternode in the list. -/
def CMasternodeMan.Outdates (man : CMasternodeMan) (a : MnAnnounce) : Prop :=
  ∃ i pmn, man.find a.vin = some (i, pmn) ∧ a.sigTime ≤ pmn.sigTime

/-- The nodes agree whether the announcement was seen, and whether its masternode is banned,
unless it is too old for both. -/
def AnnounceAdmitted (env : ManEnv) (man₁ man₂ : CMasternodeMan) (a : MnAnnounce) : Prop :=
  man₂.Outdates a ∨
    (man₁.mapSeenMasternodeBroadcast.lookup (a.read.getHash crypto)).isSome =
        (man₂.mapSeenMasternodeBroadcast.lookup (a.read.getHash crypto)).isSome ∧
      ∀ i pmn₁ pmn₂, man₁.find a.vin = some (i, pmn₁) → man₂.find a.vin = some (i, pmn₂) →
        (pmn₁.check env man₁.size false).isPoSeBanned =
          (pmn₂.check env man₂.size false).isPoSeBanned

/-- The nodes agree whether the ping was seen, and whether its masternode may ping, if they
have it in their list. -/
def PingAdmitted (man₁ man₂ : CMasternodeMan) (mnp : CMasternodePing) : Prop :=
  ∀ i pmn₁ pmn₂, man₁.find mnp.vin = some (i, pmn₁) → man₂.find mnp.vin = some (i, pmn₂) →
    (man₁.mapSeenMasternodePing.lookup (mnp.getHash crypto)).isSome =
        (man₂.mapSeenMasternodePing.lookup (mnp.getHash crypto)).isSome ∧
      pmn₁.isUpdateRequired = pmn₂.isUpdateRequired ∧
      pmn₁.isNewStartRequired = pmn₂.isNewStartRequired

/-- Every message that both nodes receive meets the same gates. -/
def Admitted : CMasternodeMan → CMasternodeMan → List MnReceived → Prop
  | _, _, [] => True
  | man₁, man₂, r :: rs =>
    if r.forged then Admitted man₁ (man₂.receive crypto r) rs
    else
      (match r.message with
        | .announce _ a => AnnounceAdmitted crypto r.env man₁ man₂ a
        | .ping mnp => PingAdmitted crypto man₁ man₂ mnp) ∧
      Admitted (man₁.receive crypto r) (man₂.receive crypto r) rs

/-! ### Masternodes with the same members -/

variable {crypto} {env : ManEnv} {man man₁ man₂ : CMasternodeMan} {pmn₁ pmn₂ : CMasternode}

namespace CMasternode.Upkeep

theorem check (h : pmn₁.Upkeep pmn₂) (n₁ n₂ : ℕ) (fForce₁ fForce₂ : Bool) :
    (pmn₁.check env n₁ fForce₁).Upkeep (pmn₂.check env n₂ fForce₂) :=
  ((check_upkeep n₁ fForce₁ pmn₁).symm.trans h).trans (check_upkeep n₂ fForce₂ pmn₂)

theorem isPingedWithin (h : pmn₁.Upkeep pmn₂) (nSeconds nTimeToCheckAt : ℤ) :
    pmn₁.isPingedWithin env nSeconds nTimeToCheckAt =
      pmn₂.isPingedWithin env nSeconds nTimeToCheckAt := by
  rw [CMasternode.isPingedWithin, CMasternode.isPingedWithin, h.lastPing]

theorem accepted (h : pmn₁.Upkeep pmn₂) {fFromNewBroadcast : Bool}
    (hgate : fFromNewBroadcast = false → pmn₁.isUpdateRequired = pmn₂.isUpdateRequired ∧
      pmn₁.isNewStartRequired = pmn₂.isNewStartRequired) (mnp : CMasternodePing) :
    mnp.accepted crypto env pmn₁ fFromNewBroadcast =
      mnp.accepted crypto env pmn₂ fFromNewBroadcast := by
  simp only [CMasternodePing.accepted, h.isPingedWithin, h.pubKeyMasternode]
  cases fFromNewBroadcast with
  | true => rfl
  | false =>
    obtain ⟨hupdate, hstart⟩ := hgate rfl
    rw [hupdate, hstart]

end CMasternode.Upkeep

theorem upkeep_lastPing (h : pmn₁.Upkeep pmn₂) (mnp : CMasternodePing) :
    CMasternode.Upkeep { pmn₁ with lastPing := mnp } { pmn₂ with lastPing := mnp } :=
  ⟨h.vin, h.addr, h.pubKeyCollateralAddress, h.pubKeyMasternode, rfl, h.vchSig, h.sigTime,
    h.nProtocolVersion⟩

variable (crypto env) in
theorem checkAndUpdate_upkeep (man : CMasternodeMan) (pmn : CMasternode) (fFromNewBroadcast : Bool)
    (mnp : CMasternodePing) :
    (if mnp.accepted crypto env pmn fFromNewBroadcast then { pmn with lastPing := mnp }
      else pmn).Upkeep (mnp.checkAndUpdate crypto env man pmn fFromNewBroadcast).2.1 := by
  rw [CMasternodePing.checkAndUpdate]
  cases mnp.accepted crypto env pmn fFromNewBroadcast with
  | false => exact .refl pmn
  | true => exact CMasternode.check_upkeep _ _ _

theorem checkAndUpdate_agree (h : pmn₁.Upkeep pmn₂) {fFromNewBroadcast : Bool}
    (hgate : fFromNewBroadcast = false → pmn₁.isUpdateRequired = pmn₂.isUpdateRequired ∧
      pmn₁.isNewStartRequired = pmn₂.isNewStartRequired) (mnp : CMasternodePing) :
    (mnp.checkAndUpdate crypto env man₁ pmn₁ fFromNewBroadcast).2.1.Upkeep
      (mnp.checkAndUpdate crypto env man₂ pmn₂ fFromNewBroadcast).2.1 := by
  have hafter₁ := checkAndUpdate_upkeep crypto env man₁ pmn₁ fFromNewBroadcast mnp
  have hafter₂ := checkAndUpdate_upkeep crypto env man₂ pmn₂ fFromNewBroadcast mnp
  rw [h.accepted hgate mnp] at hafter₁
  refine (hafter₁.symm.trans ?_).trans hafter₂
  split_ifs
  · exact upkeep_lastPing h mnp
  · exact h

theorem takePing_agree (h : pmn₁.Upkeep pmn₂) (mnp : CMasternodePing) :
    (pmn₁.takePing crypto env man₁ mnp).2.Upkeep (pmn₂.takePing crypto env man₂ mnp).2 := by
  cases hempty : mnp.isEmpty with
  | true =>
    simp only [CMasternode.takePing, hempty, if_true]
    exact upkeep_lastPing h mnp
  | false =>
    rw [takePing_of_not_empty pmn₁ hempty, takePing_of_not_empty pmn₂ hempty]
    exact checkAndUpdate_agree h (fun hfalse => Bool.noConfusion hfalse) mnp

theorem renewed_agree (h : pmn₁.Upkeep pmn₂) (mnb : CMasternodeBroadcast) :
    (pmn₁.renewed mnb).Upkeep (pmn₂.renewed mnb) :=
  ⟨h.vin, rfl, h.pubKeyCollateralAddress, rfl, h.lastPing, rfl, rfl, rfl⟩

variable (crypto env man₁ man₂) in
theorem updateFromNewBroadcast_agree (h : pmn₁.Upkeep pmn₂) (mnb : CMasternodeBroadcast) :
    (pmn₁.updateFromNewBroadcast crypto env man₁ mnb).2.1.Upkeep
      (pmn₂.updateFromNewBroadcast crypto env man₂ mnb).2.1 := by
  have htaken : ((pmn₁.renewed mnb).takePing crypto env man₁ mnb.lastPing).2.Upkeep
      ((pmn₂.renewed mnb).takePing crypto env man₂ mnb.lastPing).2 :=
    takePing_agree (renewed_agree h mnb) mnb.lastPing
  simp only [CMasternode.updateFromNewBroadcast, h.sigTime]
  generalize (pmn₁.renewed mnb).takePing crypto env man₁ mnb.lastPing = r₁ at htaken ⊢
  generalize (pmn₂.renewed mnb).takePing crypto env man₂ mnb.lastPing = r₂ at htaken ⊢
  split_ifs with hold hours₁ hours₂ hours₂
  · exact h
  · exact ⟨htaken.vin, htaken.addr, htaken.pubKeyCollateralAddress, htaken.pubKeyMasternode,
      htaken.lastPing, htaken.vchSig, htaken.sigTime, htaken.nProtocolVersion⟩
  · rw [htaken.pubKeyMasternode] at hours₂
    exact absurd hours₁ hours₂
  · rw [htaken.pubKeyMasternode] at hours₂
    exact absurd hours₂ hours₁
  · exact htaken

variable (crypto) in
theorem renews_agree (h : pmn₁.Upkeep pmn₂) {n₁ n₂ : ℕ} (mnb : CMasternodeBroadcast)
    (hbanned : (pmn₁.check env n₁ false).isPoSeBanned = (pmn₂.check env n₂ false).isPoSeBanned) :
    mnb.renews crypto env n₁ pmn₁ = mnb.renews crypto env n₂ pmn₂ := by
  have hcheck : (pmn₁.check env n₁ false).Upkeep (pmn₂.check env n₂ false) := h.check _ _ _ _
  simp only [CMasternodeBroadcast.renews, CMasternode.isBroadcastedWithin, hbanned, h.sigTime,
    hcheck.pubKeyCollateralAddress, hcheck.sigTime]

theorem update_upkeep {pmn : CMasternode} {mnb : CMasternodeBroadcast}
    (h : mnb.renews crypto env man.size pmn = false) :
    pmn.Upkeep (mnb.update crypto env man pmn).2.1 := by
  rcases update_of_not_renews h with heq | heq
  · rw [heq]
    exact .refl pmn
  · rw [heq]
    exact CMasternode.check_upkeep _ _ _

theorem update_upkeep_of_renews {pmn : CMasternode} {mnb : CMasternodeBroadcast}
    (h : mnb.renews crypto env man.size pmn = true) :
    ((pmn.check env man.size false).updateFromNewBroadcast crypto env man mnb).2.1.Upkeep
      (mnb.update crypto env man pmn).2.1 := by
  obtain ⟨n, heq⟩ := update_of_renews h
  rw [heq]
  split_ifs
  · exact CMasternode.check_upkeep _ _ _
  · exact .refl _

theorem update_agree (h : pmn₁.Upkeep pmn₂) (mnb : CMasternodeBroadcast)
    (hbanned : (pmn₁.check env man₁.size false).isPoSeBanned =
      (pmn₂.check env man₂.size false).isPoSeBanned) :
    (mnb.update crypto env man₁ pmn₁).2.1.Upkeep (mnb.update crypto env man₂ pmn₂).2.1 := by
  have hrenews := renews_agree crypto h mnb hbanned
  cases hcase : mnb.renews crypto env man₂.size pmn₂ with
  | false =>
    rw [hcase] at hrenews
    exact ((update_upkeep hrenews).symm.trans h).trans (update_upkeep hcase)
  | true =>
    rw [hcase] at hrenews
    have hcheck : (pmn₁.check env man₁.size false).Upkeep (pmn₂.check env man₂.size false) :=
      h.check _ _ _ _
    have hupdate := updateFromNewBroadcast_agree crypto env man₁ man₂ hcheck mnb
    exact ((update_upkeep_of_renews hrenews).symm.trans hupdate).trans
      (update_upkeep_of_renews hcase)

/-! ### Lists with the same members -/

/-- The lists have the same masternodes, up to what checks find out about them. -/
def CMasternodeMan.Agree (man₁ man₂ : CMasternodeMan) : Prop :=
  List.Forall₂ CMasternode.Upkeep man₁.vMasternodes man₂.vMasternodes

theorem forall₂_set_both {α : Type*} {R : α → α → Prop} {a b : α} (h : R a b) :
    ∀ {l₁ l₂ : List α} (i : ℕ), List.Forall₂ R l₁ l₂ → List.Forall₂ R (l₁.set i a) (l₂.set i b)
  | _, _, _, .nil => .nil
  | _, _, 0, .cons _ hrest => .cons h hrest
  | _, _, i + 1, .cons hcd hrest => .cons hcd (forall₂_set_both h i hrest)

namespace CMasternodeMan.Agree

theorem refl (man : CMasternodeMan) : man.Agree man :=
  List.forall₂_same.mpr fun mn _ => .refl mn

theorem find (h : man₁.Agree man₂) (vin : CTxIn) :
    (man₁.find vin = none ∧ man₂.find vin = none) ∨ ∃ i pmn₁ pmn₂,
      man₁.find vin = some (i, pmn₁) ∧ man₂.find vin = some (i, pmn₂) ∧ pmn₁.Upkeep pmn₂ := by
  have hidx : (man₂.vMasternodes.findIdx? fun mn => mn.vin.prevout = vin.prevout) =
      man₁.vMasternodes.findIdx? fun mn => mn.vin.prevout = vin.prevout := by
    have heq := congrArg (List.findIdx? fun out => decide (out = vin.prevout))
      (map_prevout_eq (fun _ _ hmn => hmn.vin) h)
    rwa [List.findIdx?_map, List.findIdx?_map] at heq
  rw [CMasternodeMan.find, CMasternodeMan.find, hidx]
  cases hi : man₁.vMasternodes.findIdx? fun mn => mn.vin.prevout = vin.prevout with
  | none => exact .inl ⟨rfl, rfl⟩
  | some i =>
    obtain ⟨hlt₁, -, -⟩ := List.findIdx?_eq_some_iff_getElem.mp hi
    have hlt₂ : i < man₂.vMasternodes.length := h.length_eq ▸ hlt₁
    refine .inr ⟨i, man₁.vMasternodes[i], man₂.vMasternodes[i], ?_, ?_, h.get hlt₁ hlt₂⟩
    · simp [hlt₁]
    · simp [hlt₂]

end CMasternodeMan.Agree

/-! ### Messages -/

theorem checkMnb_outdated {mnb : CMasternodeBroadcast} {i : ℕ} {pmn : CMasternode}
    (pfrom : Option CNetAddr) (hfind : man.find mnb.vin = some (i, pmn))
    (hrecovery : mnb.fRecovery = false) (hold : mnb.sigTime ≤ pmn.sigTime) :
    (man.checkMnbAndUpdateMasternodeList crypto env pfrom mnb).1.vMasternodes =
      man.vMasternodes := by
  have hupdate : ∀ man' : CMasternodeMan, (mnb.update crypto env man' pmn).2.1 = pmn := by
    intro man'
    rw [CMasternodeBroadcast.update]
    by_cases hsame : pmn.sigTime = mnb.sigTime
    · rw [if_pos ⟨hsame, by simp [hrecovery]⟩]
    · rw [if_neg (fun h => hsame h.1), if_pos (by omega)]
  have heffect := checkMnb_effect crypto env man mnb pfrom
  generalize (man.checkMnbAndUpdateMasternodeList crypto env pfrom mnb).1.vMasternodes = mns
    at heffect ⊢
  cases heffect with
  | same => rfl
  | renewed man₁ j pmn' _ hfind' =>
    rw [hfind] at hfind'
    obtain ⟨rfl, rfl⟩ := Prod.mk.inj (Option.some.inj hfind')
    rw [update_marked, hupdate]
    obtain ⟨hlt, hget⟩ := List.getElem?_eq_some_iff.mp (CMasternodeMan.find_eq_some hfind).1
    rw [← hget]
    exact List.set_getElem_self hlt
  | enlisted hnew _ =>
    rw [hfind] at hnew
    exact absurd hnew (by simp)

theorem processPing_unknown {mnp : CMasternodePing} (hfind : man.find mnp.vin = none) :
    (man.processPing crypto env mnp).vMasternodes = man.vMasternodes := by
  have hfind' : (man.seePing crypto mnp).find mnp.vin = none := hfind
  simp only [CMasternodeMan.processPing, hfind']
  split_ifs <;> rfl

theorem processPing_known {mnp : CMasternodePing} {i : ℕ} {pmn : CMasternode}
    (hfind : man.find mnp.vin = some (i, pmn)) :
    (man.processPing crypto env mnp).vMasternodes =
      if env.fLiteMode || !env.isBlockchainSynced ||
          (man.mapSeenMasternodePing.lookup (mnp.getHash crypto)).isSome ||
          pmn.isNewStartRequired then man.vMasternodes
      else man.vMasternodes.set i
        (mnp.checkAndUpdate crypto env (man.seePing crypto mnp) pmn false).2.1 := by
  have hfind' : (man.seePing crypto mnp).find mnp.vin = some (i, pmn) := hfind
  simp only [CMasternodeMan.processPing, hfind']
  cases env.fLiteMode || !env.isBlockchainSynced with
  | true => rfl
  | false =>
    cases (man.mapSeenMasternodePing.lookup (mnp.getHash crypto)).isSome with
    | true => rfl
    | false =>
      cases pmn.isNewStartRequired with
      | true => rfl
      | false =>
        simp only [Bool.or_self, Bool.false_eq_true, if_false, CMasternodeMan.put_vMasternodes,
          checkAndUpdate_vMasternodes, CMasternodeMan.seePing_vMasternodes]

theorem checkSignature_marked (mnb : CMasternodeBroadcast) :
    (mnb.marked env).checkSignature crypto = mnb.checkSignature crypto := by
  rw [CMasternodeBroadcast.marked]
  split_ifs <;> rfl

theorem checkOutpoint_signed {mnb : CMasternodeBroadcast}
    (h : mnb.checkOutpoint crypto env = .valid) : mnb.checkSignature crypto = true := by
  rw [CMasternodeBroadcast.checkOutpoint] at h
  by_contra hunsigned
  rw [Bool.not_eq_true] at hunsigned
  simp only [hunsigned, Bool.not_false, if_true] at h
  split_ifs at h

namespace CMasternodeMan.Agree

theorem checkMnb (h : man₁.Agree man₂) (pfrom : CNetAddr) (a : MnAnnounce)
    (hadm : AnnounceAdmitted crypto env man₁ man₂ a) :
    (man₁.checkMnbAndUpdateMasternodeList crypto env (some pfrom) a.read).1.Agree
      (man₂.checkMnbAndUpdateMasternodeList crypto env (some pfrom) a.read).1 := by
  rw [CMasternodeMan.Agree]
  have hfind := h.find a.read.vin
  rcases hadm with ⟨i, pmn, hpmn, hold⟩ | ⟨hseen, hbanned⟩
  · -- too old for both
    rcases hfind with ⟨-, hnone⟩ | ⟨j, pmn₁, pmn₂, hfind₁, hfind₂, hsame⟩
    · exact absurd (hnone.symm.trans hpmn) (by simp)
    · obtain ⟨rfl, rfl⟩ := Prod.mk.inj (Option.some.inj (hfind₂.symm.trans hpmn))
      rw [hsame.sigTime] at hold
      rw [checkMnb_outdated (some pfrom) hfind₁ rfl hold,
        checkMnb_outdated (some pfrom) hpmn rfl (hsame.sigTime ▸ hold)]
      exact h
  · cases hseen₂ : (man₂.mapSeenMasternodeBroadcast.lookup (a.read.getHash crypto)).isSome with
    | true =>
      rw [checkMnb_seen _ rfl (hseen.trans hseen₂), checkMnb_seen _ rfl hseen₂]
      exact h
    | false =>
      obtain ⟨man₁', hman₁, heq₁⟩ := checkMnb_unseen env (some pfrom)
        (.inr (hseen.trans hseen₂))
      obtain ⟨man₂', hman₂, heq₂⟩ := checkMnb_unseen env (some pfrom) (.inr hseen₂)
      rw [heq₁, heq₂]
      cases (a.read.simpleCheck crypto env).2 with
      | false => exact h
      | true =>
        rw [if_pos rfl, if_pos rfl]
        rcases hfind with ⟨hnone₁, hnone₂⟩ | ⟨i, pmn₁, pmn₂, hfind₁, hfind₂, hsame⟩
        · rw [hnone₁, hnone₂]
          dsimp only
          split_ifs
          · exact List.rel_append h (.cons (.refl _) .nil)
          · exact h
        · have hsize₁ : man₁'.size = man₁.size := congrArg List.length hman₁
          have hsize₂ : man₂'.size = man₂.size := congrArg List.length hman₂
          rw [hfind₁, hfind₂]
          refine forall₂_set_both (update_agree hsame _ ?_) i h
          rw [hsize₁, hsize₂]
          exact hbanned i pmn₁ pmn₂ hfind₁ hfind₂

theorem processPing (h : man₁.Agree man₂) (mnp : CMasternodePing)
    (hadm : PingAdmitted crypto man₁ man₂ mnp) :
    (man₁.processPing crypto env mnp).Agree (man₂.processPing crypto env mnp) := by
  rw [CMasternodeMan.Agree]
  rcases h.find mnp.vin with ⟨hnone₁, hnone₂⟩ | ⟨i, pmn₁, pmn₂, hfind₁, hfind₂, hsame⟩
  · rw [processPing_unknown hnone₁, processPing_unknown hnone₂]
    exact h
  · obtain ⟨hseen, hgate⟩ := hadm i pmn₁ pmn₂ hfind₁ hfind₂
    rw [processPing_known hfind₁, processPing_known hfind₂, hseen, hgate.2]
    split_ifs
    · exact h
    · exact forall₂_set_both (checkAndUpdate_agree hsame (fun _ => hgate) mnp) i h

theorem set_right (h : man₁.Agree man₂) {i : ℕ} {pmn pmn' : CMasternode}
    (hpmn : man₂.vMasternodes[i]? = some pmn) (hup : pmn.Upkeep pmn') :
    List.Forall₂ CMasternode.Upkeep man₁.vMasternodes (man₂.vMasternodes.set i pmn') :=
  forall₂_trans .trans h (forall₂_set .refl hup hpmn)

variable (env) in
theorem forged_announce (h : man₁.Agree man₂) (pfrom : CNetAddr) {a : MnAnnounce}
    (hunsigned : a.read.checkSignature crypto = false) :
    man₁.Agree (man₂.checkMnbAndUpdateMasternodeList crypto env (some pfrom) a.read).1 := by
  rw [CMasternodeMan.Agree]
  have heffect := checkMnb_effect crypto env man₂ a.read (some pfrom)
  generalize (man₂.checkMnbAndUpdateMasternodeList crypto env (some pfrom) a.read).1.vMasternodes =
    mns at heffect ⊢
  cases heffect with
  | same => exact h
  | renewed man' i pmn _ hfind =>
    refine h.set_right (CMasternodeMan.find_eq_some hfind).1 ?_
    rw [update_marked]
    refine update_upkeep ?_
    simp [CMasternodeBroadcast.renews, hunsigned]
  | enlisted _ hvalid =>
    have hsigned := checkOutpoint_signed hvalid
    rw [checkSignature_marked, hunsigned] at hsigned
    exact Bool.noConfusion hsigned

theorem forged_ping (h : man₁.Agree man₂) {mnp : CMasternodePing}
    (hunsigned : ∀ i pmn, man₂.find mnp.vin = some (i, pmn) →
      mnp.checkSignature crypto pmn.pubKeyMasternode = false) :
    man₁.Agree (man₂.processPing crypto env mnp) := by
  rw [CMasternodeMan.Agree]
  cases hfind : man₂.find mnp.vin with
  | none =>
    rw [processPing_unknown hfind]
    exact h
  | some r =>
    obtain ⟨i, pmn⟩ := r
    have hrefused : mnp.accepted crypto env pmn false = false := by
      rw [← Bool.not_eq_true]
      intro haccepted
      have hsigned := checkSignature_of_accepted haccepted
      rw [hunsigned i pmn hfind] at hsigned
      exact Bool.noConfusion hsigned
    rw [processPing_known hfind]
    split_ifs
    · exact h
    · refine h.set_right (CMasternodeMan.find_eq_some hfind).1 ?_
      have hafter := checkAndUpdate_upkeep crypto env (man₂.seePing crypto mnp) pmn false mnp
      rw [hrefused] at hafter
      exact hafter

theorem forged (h : man₁.Agree man₂) {r : MnReceived} (hunsigned : r.Unsigned crypto man₂) :
    man₁.Agree (man₂.receive crypto r) := by
  obtain ⟨forged, env, message⟩ := r
  cases message with
  | ping mnp => exact h.forged_ping hunsigned
  | announce pfrom a =>
    show man₁.Agree (man₂.processAnnounce crypto env pfrom a)
    have hafter := h.forged_announce env pfrom hunsigned
    rw [CMasternodeMan.processAnnounce]
    dsimp only
    split_ifs
    · exact h
    · exact hafter
    · exact hafter

theorem both (h : man₁.Agree man₂) {r : MnReceived}
    (hadm : match r.message with
      | .announce _ a => AnnounceAdmitted crypto r.env man₁ man₂ a
      | .ping mnp => PingAdmitted crypto man₁ man₂ mnp) :
    (man₁.receive crypto r).Agree (man₂.receive crypto r) := by
  obtain ⟨forged, env, message⟩ := r
  cases message with
  | ping mnp => exact h.processPing mnp hadm
  | announce pfrom a =>
    show (man₁.processAnnounce crypto env pfrom a).Agree (man₂.processAnnounce crypto env pfrom a)
    have hafter := h.checkMnb pfrom a hadm
    rw [CMasternodeMan.processAnnounce, CMasternodeMan.processAnnounce]
    dsimp only
    split_ifs
    all_goals first | exact h | exact hafter

theorem run : ∀ {rs : List MnReceived} {man₁ man₂ : CMasternodeMan}, man₁.Agree man₂ →
    AllUnsigned crypto man₂ rs → Admitted crypto man₁ man₂ rs → NotSuppressed crypto man₁ man₂ rs
  | [], _, _, _, _, _ => trivial
  | r :: rs, man₁, man₂, h, hunsigned, hadm => by
    rw [Admitted] at hadm
    rw [NotSuppressed]
    cases hr : r.forged with
    | true =>
      rw [hr, if_pos rfl] at hadm
      rw [if_pos rfl]
      exact (h.forged (hunsigned.1 hr)).run hunsigned.2 hadm
    | false =>
      rw [hr, if_neg Bool.false_ne_true] at hadm
      rw [if_neg Bool.false_ne_true]
      have hafter := h.both hadm.1
      refine ⟨fun mn hmn => ?_, hafter.run hunsigned.2 hadm.2⟩
      obtain ⟨i, hi, rfl⟩ := List.getElem_of_mem hmn
      have hi' : i < (man₂.receive crypto r).vMasternodes.length := hafter.length_eq ▸ hi
      exact ⟨_, List.getElem_mem hi', hafter.get hi hi'⟩

end CMasternodeMan.Agree

/-- **Forged messages suppress nothing** where every message that both nodes receive meets the
same gates at both. -/
theorem forged_messages_harmless {rs : List MnReceived} (hunsigned : AllUnsigned crypto man rs)
    (hadm : Admitted crypto man man rs) : NotSuppressed crypto man man rs :=
  (CMasternodeMan.Agree.refl man).run hunsigned hadm

/-! ### A masternode among forged messages -/

/-- The masternode `(9, 1)` is announced and pings; announcements and pings come with a
signature. -/
def announceSigned (sigTime : ℤ) (vchSig : List UInt8) : MnMessage :=
  .announce [] { announceOutput 1 with
    sigTime := sigTime
    vchSig := vchSig
    lastPing := ⟨⟨⟨9, 1⟩, [], 4294967295⟩, 6, 1499999000, [3]⟩ }

def pingSigned (sigTime : ℤ) (vchSig : List UInt8) : MnMessage :=
  .ping ⟨⟨⟨9, 1⟩, [], 4294967295⟩, 6, sigTime, vchSig⟩

/-- The forged messages have times of their own. -/
def otherTimes : List MnReceived :=
  [⟨false, pingEnv, announceSigned 1490000000 [2]⟩, ⟨true, pingEnv, announceSigned 1490000001 []⟩,
    ⟨true, pingEnv, pingSigned 1499999999 []⟩, ⟨false, pingEnv, pingSigned 1500000000 [3]⟩]

theorem forged_messages_harmless_otherTimes :
    AllUnsigned keyCrypto .init otherTimes ∧ Admitted keyCrypto .init .init otherTimes ∧
      NotSuppressed keyCrypto .init .init otherTimes := by
  have hunsigned : AllUnsigned keyCrypto .init otherTimes := by
    refine ⟨fun h => absurd h (by decide), fun _ => rfl, fun _ i pmn hfind => ?_,
      fun h => absurd h (by decide), trivial⟩
    obtain ⟨-, rfl⟩ := Prod.mk.inj (Option.some.inj hfind)
    rfl
  have hadm : Admitted keyCrypto .init .init otherTimes := by
    refine ⟨.inr ⟨rfl, fun i pmn₁ pmn₂ hfind => ?_⟩, fun i pmn₁ pmn₂ hfind₁ hfind₂ => ?_, trivial⟩
    · simp [CMasternodeMan.find, CMasternodeMan.init] at hfind
    · obtain ⟨-, rfl⟩ := Prod.mk.inj (Option.some.inj hfind₁)
      obtain ⟨-, rfl⟩ := Prod.mk.inj (Option.some.inj hfind₂)
      exact ⟨rfl, rfl, rfl⟩
  exact ⟨hunsigned, hadm, forged_messages_harmless hunsigned hadm⟩

/-- A forged announcement with the outpoint, the key and the time of the masternode's own. -/
def sameTime : List MnReceived :=
  [⟨true, pingEnv, announceSigned 1490000000 []⟩, ⟨false, pingEnv, announceSigned 1490000000 [2]⟩]

/-- **A forged announcement suppresses the masternode's own**: without it the masternode is
put in the list, with it the list stays empty. -/
theorem forged_announcement_suppresses :
    AllUnsigned keyCrypto .init sameTime ∧
    (∀ r ∈ sameTime, r.forged = false → ¬ r.Unsigned keyCrypto .init) ∧
    ((sameTime.filter fun r => !r.forged).foldl (·.receive keyCrypto ·)
      CMasternodeMan.init).vMasternodes.map (fun mn => (mn.vin.prevout, mn.vchSig)) =
        [(⟨9, 1⟩, [2])] ∧
    (sameTime.foldl (·.receive keyCrypto ·) CMasternodeMan.init).vMasternodes = [] ∧
    ¬ NotSuppressed keyCrypto .init .init sameTime := by
  have hempty : (sameTime.foldl (·.receive keyCrypto ·) CMasternodeMan.init).vMasternodes = [] := by
    decide +kernel
  have hone : 0 < ((sameTime.filter fun r => !r.forged).foldl (·.receive keyCrypto ·)
      CMasternodeMan.init).vMasternodes.length := by
    decide +kernel
  refine ⟨⟨fun _ => rfl, fun h => absurd h (by decide), trivial⟩, fun r hr hforged hunsigned => ?_,
    by decide +kernel, hempty, fun h => ?_⟩
  · obtain rfl | rfl : r = _ ∨ r = _ := by simpa [sameTime] using hr
    · exact absurd hforged (by decide)
    · exact absurd (show _ = false from hunsigned) (by decide)
  obtain ⟨mn, hmn⟩ := List.exists_mem_of_length_pos hone
  obtain ⟨mn', hmn', -⟩ := h.1 mn hmn
  have hnone : mn' ∈ (sameTime.foldl (·.receive keyCrypto ·) CMasternodeMan.init).vMasternodes :=
    hmn'
  rw [hempty] at hnone
  exact absurd hnone List.not_mem_nil

end Stonecoin
