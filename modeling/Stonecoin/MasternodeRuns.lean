/-
What events do to the list of masternodes.
-/
import Stonecoin.MasternodeUpkeep

namespace Stonecoin

open MasternodeState

variable {crypto : MasternodeCrypto} {env : ManEnv} {man : CMasternodeMan}

/-! ### What the parts leave alone -/

namespace CMasternodeMan

@[simp] theorem seePing_vMasternodes (mnp : CMasternodePing) :
    (man.seePing crypto mnp).vMasternodes = man.vMasternodes := rfl

@[simp] theorem seeBroadcast_vMasternodes (hash : UInt256) (t : ℤ) (mnb : CMasternodeBroadcast) :
    (man.seeBroadcast hash t mnb).vMasternodes = man.vMasternodes := rfl

@[simp] theorem forget_vMasternodes (hash : UInt256) :
    (man.forget hash).vMasternodes = man.vMasternodes := rfl

@[simp] theorem put_vMasternodes (i : ℕ) (mn : CMasternode) :
    (man.put i mn).vMasternodes = man.vMasternodes.set i mn := rfl

@[simp] theorem refreshSeen_vMasternodes (hash : UInt256) (mnp : CMasternodePing) :
    (man.refreshSeen hash mnp).vMasternodes = man.vMasternodes := by
  rw [refreshSeen]
  cases man.mapSeenMasternodeBroadcast.lookup hash with
  | none => rfl
  | some seen => rfl

end CMasternodeMan

theorem checkAndUpdate_vMasternodes (mnp : CMasternodePing) (pmn : CMasternode)
    (fFromNewBroadcast : Bool) :
    (mnp.checkAndUpdate crypto env man pmn fFromNewBroadcast).1.vMasternodes = man.vMasternodes := by
  rw [CMasternodePing.checkAndUpdate]
  split_ifs
  · rfl
  · exact CMasternodeMan.refreshSeen_vMasternodes _ _

theorem takePing_vMasternodes (pmn : CMasternode) (mnp : CMasternodePing) :
    (pmn.takePing crypto env man mnp).1.vMasternodes = man.vMasternodes := by
  rw [CMasternode.takePing]
  dsimp only
  split_ifs
  · rfl
  · exact checkAndUpdate_vMasternodes mnp pmn true
  · exact checkAndUpdate_vMasternodes mnp pmn true

theorem updateFromNewBroadcast_vMasternodes (pmn : CMasternode) (mnb : CMasternodeBroadcast) :
    (pmn.updateFromNewBroadcast crypto env man mnb).1.vMasternodes = man.vMasternodes := by
  rw [CMasternode.updateFromNewBroadcast]
  dsimp only
  split_ifs
  · rfl
  · exact takePing_vMasternodes _ _
  · exact takePing_vMasternodes _ _

theorem update_vMasternodes (pmn : CMasternode) (mnb : CMasternodeBroadcast) :
    (mnb.update crypto env man pmn).1.vMasternodes = man.vMasternodes := by
  rw [CMasternodeBroadcast.update]
  dsimp only
  split_ifs
  all_goals first | rfl | exact updateFromNewBroadcast_vMasternodes _ _

/-! ### Updates -/

theorem checkAndUpdate_lastPing {mnp : CMasternodePing} {pmn : CMasternode}
    {fFromNewBroadcast : Bool}
    (h : (mnp.checkAndUpdate crypto env man pmn fFromNewBroadcast).2.2 = true) :
    (mnp.checkAndUpdate crypto env man pmn fFromNewBroadcast).2.1.lastPing = mnp := by
  rw [CMasternodePing.checkAndUpdate] at h ⊢
  split_ifs at h ⊢
  exact (CMasternode.check_upkeep _ _ _).lastPing

theorem takePing_of_not_empty (pmn : CMasternode) {mnp : CMasternodePing}
    (hempty : mnp.isEmpty = false) :
    (pmn.takePing crypto env man mnp).2 = (mnp.checkAndUpdate crypto env man pmn true).2.1 := by
  simp only [CMasternode.takePing, hempty, Bool.false_eq_true, if_false]
  split_ifs with henabled
  · -- the ping is stored once more
    have hping := checkAndUpdate_lastPing henabled
    generalize (mnp.checkAndUpdate crypto env man pmn true).2.1 = pmn' at hping ⊢
    subst hping
    rfl
  · rfl

variable (crypto env) in
/-- An update takes the announcement over. -/
def CMasternodeBroadcast.renews (env : ManEnv) (size : ℕ) (pmn : CMasternode)
    (mnb : CMasternodeBroadcast) : Bool :=
  let pmn' := pmn.check env size false
  !(pmn.sigTime = mnb.sigTime && !mnb.fRecovery) && pmn.sigTime ≤ mnb.sigTime &&
    !pmn'.isPoSeBanned && pmn'.pubKeyCollateralAddress = mnb.pubKeyCollateralAddress &&
    mnb.checkSignature crypto &&
    (!pmn'.isBroadcastedWithin env MASTERNODE_MIN_MNB_SECONDS ||
      (env.fMasterNode && mnb.pubKeyMasternode = env.activePubKeyMasternode))

section Update

variable {pmn : CMasternode} {mnb : CMasternodeBroadcast}

theorem sigTime_of_renews {n : ℕ} (h : mnb.renews crypto env n pmn = true) :
    pmn.sigTime ≤ mnb.sigTime := by
  simp only [CMasternodeBroadcast.renews, Bool.and_eq_true, decide_eq_true_eq] at h
  tauto

theorem update_of_not_renews (h : mnb.renews crypto env man.size pmn = false) :
    (mnb.update crypto env man pmn).2.1 = pmn ∨
      (mnb.update crypto env man pmn).2.1 = pmn.check env man.size false := by
  simp only [CMasternodeBroadcast.update]
  by_cases hsame : pmn.sigTime = mnb.sigTime ∧ (!mnb.fRecovery) = true
  · rw [if_pos hsame]
    exact .inl rfl
  by_cases hold : mnb.sigTime < pmn.sigTime
  · rw [if_neg hsame, if_pos hold]
    exact .inl rfl
  rw [if_neg hsame, if_neg hold]
  split_ifs with hbanned hcollateral hsigned htakes
  all_goals first | exact .inr rfl | skip
  all_goals
    simp only [CMasternodeBroadcast.renews] at h
    simp_all

theorem update_of_renews (h : mnb.renews crypto env man.size pmn = true) :
    ∃ n, (mnb.update crypto env man pmn).2.1 =
      if ((pmn.check env man.size false).updateFromNewBroadcast crypto env man mnb).2.2 then
        ((pmn.check env man.size false).updateFromNewBroadcast crypto env man mnb).2.1.check
          env n false
      else ((pmn.check env man.size false).updateFromNewBroadcast crypto env man mnb).2.1 := by
  have hdate := sigTime_of_renews h
  simp only [CMasternodeBroadcast.renews, Bool.and_eq_true, Bool.not_eq_true', decide_eq_true_eq]
    at h
  obtain ⟨⟨⟨⟨⟨hsame, -⟩, hbanned⟩, hcollateral⟩, hsigned⟩, htakes⟩ := h
  have hsame' : ¬ (pmn.sigTime = mnb.sigTime ∧ (!mnb.fRecovery) = true) := by
    simpa [Bool.and_eq_false_iff, imp_iff_not_or] using hsame
  refine ⟨((pmn.check env man.size false).updateFromNewBroadcast crypto env man mnb).1.size, ?_⟩
  simp only [CMasternodeBroadcast.update]
  rw [if_neg hsame', if_neg (by omega), if_neg (by simp [hbanned]),
    if_neg (not_not.mpr hcollateral), if_neg (by simp [hsigned]), if_pos htakes]

end Update

/-! ### What an announcement does to the list -/

namespace CMasternodeMan

variable {vin : CTxIn} {i : ℕ} {pmn : CMasternode} {mnb : CMasternodeBroadcast}

theorem find_eq_some (h : man.find vin = some (i, pmn)) :
    man.vMasternodes[i]? = some pmn ∧ pmn.vin.prevout = vin.prevout := by
  obtain ⟨j, hj, hmap⟩ := Option.bind_eq_some_iff.mp h
  obtain ⟨mn, hmn, heq⟩ := Option.map_eq_some_iff.mp hmap
  obtain ⟨rfl, rfl⟩ := Prod.mk.inj heq
  obtain ⟨hlt, hprevout, -⟩ := List.findIdx?_eq_some_iff_getElem.mp hj
  refine ⟨hmn, ?_⟩
  rw [List.getElem?_eq_getElem hlt, Option.some.injEq] at hmn
  rw [← hmn]
  exact of_decide_eq_true hprevout

theorem find_eq_none : man.find vin = none ↔
    ∀ mn ∈ man.vMasternodes, mn.vin.prevout ≠ vin.prevout := by
  rw [find]
  cases hidx : man.vMasternodes.findIdx? fun mn => mn.vin.prevout = vin.prevout with
  | none =>
    refine iff_of_true rfl fun mn hmn => ?_
    simpa using List.findIdx?_eq_none_iff.mp hidx mn hmn
  | some j =>
    obtain ⟨hlt, hprevout, -⟩ := List.findIdx?_eq_some_iff_getElem.mp hidx
    rw [Option.bind_some, List.getElem?_eq_getElem hlt]
    refine iff_of_false (by simp) fun hall => ?_
    exact hall _ (List.getElem_mem hlt) (of_decide_eq_true hprevout)

theorem add_vMasternodes (hnew : man.find pmn.vin = none) :
    (man.add pmn).vMasternodes = man.vMasternodes ++ [pmn] := by
  rw [add, hnew]
  rfl

end CMasternodeMan

theorem simpleCheck_of_passes {mnb : CMasternodeBroadcast}
    (h : (mnb.simpleCheck crypto env).2 = true) :
    (mnb.simpleCheck crypto env).1 = mnb.marked env := by
  rw [CMasternodeBroadcast.simpleCheck] at h ⊢
  dsimp only at h ⊢
  split_ifs at h ⊢
  all_goals rfl

/-- What an announcement can do to the list. -/
inductive AnnounceEffect (crypto : MasternodeCrypto) (env : ManEnv) (man : CMasternodeMan)
    (mnb : CMasternodeBroadcast) : List CMasternode → Prop
  | same : AnnounceEffect crypto env man mnb man.vMasternodes
  /-- A masternode of the list is updated. -/
  | renewed (man₁ : CMasternodeMan) (i : ℕ) (pmn : CMasternode) :
      man₁.vMasternodes = man.vMasternodes → man.find mnb.vin = some (i, pmn) →
      AnnounceEffect crypto env man mnb
        (man.vMasternodes.set i ((mnb.marked env).update crypto env man₁ pmn).2.1)
  /-- A new masternode is put behind the others. -/
  | enlisted : man.find mnb.vin = none → (mnb.marked env).checkOutpoint crypto env = .valid →
      AnnounceEffect crypto env man mnb (man.vMasternodes ++ [(mnb.marked env).toCMasternode])

theorem marked_vin (mnb : CMasternodeBroadcast) : (mnb.marked env).vin = mnb.vin := by
  rw [CMasternodeBroadcast.marked]
  split_ifs <;> rfl

variable (crypto env man) in
theorem renew_vMasternodes (i : ℕ) (pmn : CMasternode) (mnb : CMasternodeBroadcast) :
    ∃ man₁ : CMasternodeMan, man₁.vMasternodes = man.vMasternodes ∧
      (man.renew crypto env i pmn mnb).1.vMasternodes =
        man.vMasternodes.set i (mnb.update crypto env man₁ pmn).2.1 := by
  refine ⟨man.seeBroadcast (pmn.toBroadcast.getHash crypto) 0 (CMasternodeBroadcast.default env),
    rfl, ?_⟩
  rw [CMasternodeMan.renew]
  split_ifs
  all_goals
    simp only [CMasternodeMan.forget_vMasternodes, CMasternodeMan.put_vMasternodes,
      update_vMasternodes, CMasternodeMan.seeBroadcast_vMasternodes]

theorem enlist_vMasternodes {mnb : CMasternodeBroadcast} (hnew : man.find mnb.vin = none) :
    (man.enlist crypto env mnb).1.vMasternodes =
      if mnb.checkOutpoint crypto env = .valid then man.vMasternodes ++ [mnb.toCMasternode]
      else man.vMasternodes := by
  rw [CMasternodeMan.enlist]
  cases hcheck : mnb.checkOutpoint crypto env with
  | later => rfl
  | invalid => rfl
  | valid =>
    rw [if_pos rfl]
    dsimp only
    split_ifs
    · exact CMasternodeMan.add_vMasternodes hnew
    · exact CMasternodeMan.add_vMasternodes hnew

theorem seenAgain_vMasternodes (pfrom : Option CNetAddr) (mnb : CMasternodeBroadcast)
    (hash : UInt256) (seen : ℤ × CMasternodeBroadcast) :
    (man.seenAgain env pfrom mnb hash seen).vMasternodes = man.vMasternodes := by
  simp only [CMasternodeMan.seenAgain]
  split_ifs
  all_goals
    split
    · split_ifs <;> rfl
    · rfl

variable {mnb : CMasternodeBroadcast}

theorem checkMnb_seen (pfrom : Option CNetAddr) (hrecovery : mnb.fRecovery = false)
    (hseen : (man.mapSeenMasternodeBroadcast.lookup (mnb.getHash crypto)).isSome = true) :
    (man.checkMnbAndUpdateMasternodeList crypto env pfrom mnb).1.vMasternodes =
      man.vMasternodes := by
  obtain ⟨seen, hlookup⟩ := Option.isSome_iff_exists.mp hseen
  rw [CMasternodeMan.checkMnbAndUpdateMasternodeList, hrecovery, hlookup]
  exact seenAgain_vMasternodes _ _ _ _

variable (env) in
theorem checkMnb_unseen (pfrom : Option CNetAddr) (hunseen : mnb.fRecovery = true ∨
      (man.mapSeenMasternodeBroadcast.lookup (mnb.getHash crypto)).isSome = false) :
    ∃ man₁ : CMasternodeMan, man₁.vMasternodes = man.vMasternodes ∧
      (man.checkMnbAndUpdateMasternodeList crypto env pfrom mnb).1.vMasternodes =
        if (mnb.simpleCheck crypto env).2 then
          match man.find mnb.vin with
          | some (i, pmn) =>
            man.vMasternodes.set i ((mnb.marked env).update crypto env man₁ pmn).2.1
          | none =>
            if (mnb.marked env).checkOutpoint crypto env = .valid then
              man.vMasternodes ++ [(mnb.marked env).toCMasternode]
            else man.vMasternodes
        else man.vMasternodes := by
  rw [CMasternodeMan.checkMnbAndUpdateMasternodeList]
  split
  · rename_i seen hrecovery hlookup
    rw [hrecovery, hlookup] at hunseen
    simp at hunseen
  · dsimp only
    cases hpass : (mnb.simpleCheck crypto env).2 with
    | false => exact ⟨man, rfl, rfl⟩
    | true =>
      have hsame : (man.seeBroadcast (mnb.getHash crypto) env.getTime mnb).find
          (mnb.marked env).vin = man.find mnb.vin := by
        rw [marked_vin]
        rfl
      rw [simpleCheck_of_passes hpass, hsame]
      cases hfind : man.find mnb.vin with
      | some r =>
        obtain ⟨i, pmn⟩ := r
        obtain ⟨man₁, hman₁, heq⟩ := renew_vMasternodes crypto env
          (man.seeBroadcast (mnb.getHash crypto) env.getTime mnb) i pmn (mnb.marked env)
        exact ⟨man₁, hman₁, heq⟩
      | none => exact ⟨man, rfl, enlist_vMasternodes (hsame.trans hfind)⟩

variable (crypto env man mnb) in
theorem checkMnb_effect (pfrom : Option CNetAddr) : AnnounceEffect crypto env man mnb
    (man.checkMnbAndUpdateMasternodeList crypto env pfrom mnb).1.vMasternodes := by
  by_cases hseen : mnb.fRecovery = false ∧
      (man.mapSeenMasternodeBroadcast.lookup (mnb.getHash crypto)).isSome = true
  · rw [checkMnb_seen pfrom hseen.1 hseen.2]
    exact .same
  · have hunseen : mnb.fRecovery = true ∨
        (man.mapSeenMasternodeBroadcast.lookup (mnb.getHash crypto)).isSome = false := by
      rw [← Bool.not_eq_true, ← Bool.not_eq_false]
      tauto
    obtain ⟨man₁, hman₁, heq⟩ := checkMnb_unseen env pfrom hunseen
    rw [heq]
    cases (mnb.simpleCheck crypto env).2 with
    | false => exact .same
    | true =>
      rw [if_pos rfl]
      cases hfind : man.find mnb.vin with
      | some r => exact .renewed man₁ r.1 r.2 hman₁ hfind
      | none =>
        dsimp only
        split_ifs with hvalid
        · exact .enlisted hfind hvalid
        · exact .same

/-! ### Properties of the list -/

variable (crypto env man) in
theorem processPing_vMasternodes (mnp : CMasternodePing) :
    (man.processPing crypto env mnp).vMasternodes = man.vMasternodes ∨
      ∃ (man₁ : CMasternodeMan) (i : ℕ) (pmn : CMasternode),
        man.find mnp.vin = some (i, pmn) ∧
        (man.processPing crypto env mnp).vMasternodes =
          man.vMasternodes.set i (mnp.checkAndUpdate crypto env man₁ pmn false).2.1 := by
  simp only [CMasternodeMan.processPing]
  split_ifs
  · exact .inl rfl
  · exact .inl rfl
  · cases hfind : (man.seePing crypto mnp).find mnp.vin with
    | none => exact .inl rfl
    | some r =>
      obtain ⟨i, pmn⟩ := r
      dsimp only
      split_ifs
      · exact .inl rfl
      · refine .inr ⟨man.seePing crypto mnp, i, pmn, hfind, ?_⟩
        rw [CMasternodeMan.put_vMasternodes, checkAndUpdate_vMasternodes,
          CMasternodeMan.seePing_vMasternodes]

/-- Masternodes that differ in their score only. -/
def CMasternode.Scored (mn mn' : CMasternode) : Prop :=
  ∃ score, mn' = { mn with nPoSeBanScore := score }

namespace CMasternode.Scored

theorem refl (mn : CMasternode) : mn.Scored mn := ⟨mn.nPoSeBanScore, rfl⟩

theorem trans {mn mn' mn'' : CMasternode} (h : mn.Scored mn') (h' : mn'.Scored mn'') :
    mn.Scored mn'' := by
  obtain ⟨score, rfl⟩ := h
  obtain ⟨score', rfl⟩ := h'
  exact ⟨score', rfl⟩

theorem increase (mn : CMasternode) : mn.Scored mn.increasePoSeBanScore := by
  rw [increasePoSeBanScore]
  split_ifs
  · exact ⟨_, rfl⟩
  · exact refl mn

theorem decrease (mn : CMasternode) : mn.Scored mn.decreasePoSeBanScore := by
  rw [decreasePoSeBanScore]
  split_ifs
  · exact ⟨_, rfl⟩
  · exact refl mn

theorem forall₂_refl (mns : List CMasternode) : List.Forall₂ CMasternode.Scored mns mns :=
  List.forall₂_same.mpr fun mn _ => refl mn

end CMasternode.Scored

theorem verifyReplyLoop_scored {v : VerifyEnv} {vchSig : List UInt8} {strMessage : String} :
    ∀ {mns : List CMasternode} {r}, verifyReplyLoop crypto env v vchSig strMessage mns = some r →
      List.Forall₂ CMasternode.Scored mns r.1
  | [], r, h => by
    obtain rfl := Option.some.inj h
    exact .nil
  | mn :: mns, r, h => by
    have hscored : mn.Scored (if !mn.isPoSeVerified then mn.decreasePoSeBanScore else mn) := by
      split_ifs
      · exact .decrease mn
      · exact .refl mn
    rw [verifyReplyLoop] at h
    dsimp only at h
    generalize (if !mn.isPoSeVerified then mn.decreasePoSeBanScore else mn) = mn' at h hscored
    split_ifs at h with hreal hnull hsigns
    · obtain rfl := Option.some.inj h
      exact .cons hscored (CMasternode.Scored.forall₂_refl mns)
    · obtain ⟨r', hr', rfl⟩ := Option.map_eq_some_iff.mp h
      exact .cons hscored (verifyReplyLoop_scored hr')
    · obtain ⟨r', hr', rfl⟩ := Option.map_eq_some_iff.mp h
      exact .cons (.refl mn) (verifyReplyLoop_scored hr')

theorem forall₂_set {α : Type*} {R : α → α → Prop} (hrefl : ∀ a, R a a) {a a' : α}
    (h : R a a') : ∀ {l : List α} {i : ℕ}, l[i]? = some a → List.Forall₂ R l (l.set i a')
  | b :: l, 0, hi => by
    obtain rfl := Option.some.inj hi
    exact .cons h (List.forall₂_same.mpr fun c _ => hrefl c)
  | b :: l, i + 1, hi => by
    rw [List.getElem?_cons_succ] at hi
    exact .cons (hrefl b) (forall₂_set hrefl h hi)

theorem forall₂_map {f : CMasternode → CMasternode} (hf : ∀ mn : CMasternode, mn.Scored (f mn))
    (mns : List CMasternode) : List.Forall₂ CMasternode.Scored mns (mns.map f) :=
  List.forall₂_map_right_iff.mpr (List.forall₂_same.mpr fun mn _ => hf mn)

theorem forall₂_trans {α : Type*} {R : α → α → Prop} (htrans : ∀ {a b c}, R a b → R b c → R a c)
    {l₁ l₂ l₃ : List α} (h : List.Forall₂ R l₁ l₂) (h' : List.Forall₂ R l₂ l₃) :
    List.Forall₂ R l₁ l₃ := by
  induction h generalizing l₃ with
  | nil => exact h'
  | cons hab _ ih =>
    cases h' with
    | cons hbc hrest => exact .cons (htrans hab hbc) (ih hrest)

theorem map_prevout_eq {R : CMasternode → CMasternode → Prop}
    (hR : ∀ mn mn', R mn mn' → mn'.vin = mn.vin) {l₁ l₂ : List CMasternode}
    (h : List.Forall₂ R l₁ l₂) : l₂.map (·.vin.prevout) = l₁.map (·.vin.prevout) := by
  induction h with
  | nil => rfl
  | cons hmn _ ih => rw [List.map_cons, List.map_cons, ih, hR _ _ hmn]

theorem judgeVerifyReply_scored {v : VerifyEnv} {mnv : CMasternodeVerification}
    {strMessage : String} {man' : CMasternodeMan}
    (h : man.judgeVerifyReply crypto env v mnv strMessage = some man') :
    List.Forall₂ CMasternode.Scored man.vMasternodes man'.vMasternodes := by
  obtain ⟨r, hr, rfl⟩ := Option.map_eq_some_iff.mp h
  have hloop := verifyReplyLoop_scored hr
  dsimp only
  split_ifs
  · exact hloop
  · refine forall₂_trans .trans hloop (forall₂_map (fun mn => ?_) r.1)
    split_ifs
    · exact .increase mn
    · exact .refl mn

theorem creditVerified_scored {i : ℕ} {pmn1 : CMasternode} (mnv : CMasternodeVerification)
    (h : man.vMasternodes[i]? = some pmn1) :
    List.Forall₂ CMasternode.Scored man.vMasternodes
      (man.creditVerified i pmn1 mnv).vMasternodes := by
  have hscored : pmn1.Scored
      (if !pmn1.isPoSeVerified then pmn1.decreasePoSeBanScore else pmn1) := by
    split_ifs
    · exact .decrease pmn1
    · exact .refl pmn1
  refine forall₂_trans .trans (forall₂_set .refl hscored h) (forall₂_map (fun mn => ?_) _)
  split_ifs
  · exact .refl mn
  · exact .increase mn

theorem processVerify_scored {v : VerifyEnv} {mnv : CMasternodeVerification}
    {man' : CMasternodeMan} (h : man.processVerify crypto env v mnv = some man') :
    List.Forall₂ CMasternode.Scored man.vMasternodes man'.vMasternodes := by
  have hsame : ∀ {man'}, some man = some man' →
      List.Forall₂ CMasternode.Scored man.vMasternodes man'.vMasternodes := by
    intro man' heq
    obtain rfl := Option.some.inj heq
    exact CMasternode.Scored.forall₂_refl _
  have hreply : ∀ {man'}, man.processVerifyReply crypto env v mnv = some man' →
      List.Forall₂ CMasternode.Scored man.vMasternodes man'.vMasternodes := by
    intro man' hr
    rw [CMasternodeMan.processVerifyReply] at hr
    repeat' split at hr
    all_goals first | exact hsame hr | exact judgeVerifyReply_scored hr
  have hbroadcast : List.Forall₂ CMasternode.Scored man.vMasternodes
      (man.processVerifyBroadcast crypto v mnv).vMasternodes := by
    rw [CMasternodeMan.processVerifyBroadcast]
    dsimp only
    repeat' split
    all_goals
      first
      | exact CMasternode.Scored.forall₂_refl _
      | exact creditVerified_scored mnv (CMasternodeMan.find_eq_some (by assumption)).1
  rw [CMasternodeMan.processVerify] at h
  split_ifs at h
  · exact hsame h
  · exact hsame h
  · exact hreply h
  · obtain rfl := Option.some.inj h
    exact hbroadcast

/-! ### `CheckAndRemove` -/

theorem removeLoop_sublist (c : RemoveEnv) : ∀ (mns : List CMasternode) (n : ℤ)
    (man : CMasternodeMan), (CMasternodeMan.removeLoop crypto env c mns n man).1.Sublist mns
  | [], _, _ => .slnil
  | mn :: mns, n, man => by
    rw [CMasternodeMan.removeLoop]
    dsimp only
    split_ifs
    · exact (removeLoop_sublist c mns _ _).cons mn
    all_goals exact (removeLoop_sublist c mns _ _).cons_cons mn

theorem expire_vMasternodes (c : RemoveEnv) :
    (man.expire env c).vMasternodes = man.vMasternodes := by
  have hindex : ∀ man : CMasternodeMan,
      (man.checkAndRebuildMasternodeIndex env).vMasternodes = man.vMasternodes := by
    intro man
    rw [CMasternodeMan.checkAndRebuildMasternodeIndex]
    split_ifs <;> rfl
  simp only [CMasternodeMan.expire]
  split_ifs
  · exact hindex _
  · rfl

theorem recover_vMasternodes (e : Sigma fun _ : UInt256 => List CMasternodeBroadcast) :
    (man.recover crypto env e).vMasternodes = ((man.reprocessed env e).elim (man.touchRequest e.1)
      fun mnb => ((man.touchRequest e.1).checkMnbAndUpdateMasternodeList crypto env none
        mnb).1).vMasternodes := by
  simp only [CMasternodeMan.recover]
  split_ifs <;> rfl

/-! ### Properties that every event keeps -/

section Invariant

variable (crypto) in
/-- A property of the list that scores, checks and removals keep, announcements as far as
`MnbOk` goes, and pings as far as `PingOk` goes. -/
structure ListInvariant (I : List CMasternode → Prop) (MnbOk : MnbCall → Prop)
    (PingOk : ManEnv → CMasternodeMan → CMasternodePing → Prop) : Prop where
  score : ∀ l l', List.Forall₂ CMasternode.Scored l l' → I l → I l'
  check : ∀ env n l, I l → I (l.map (·.check env n false))
  sublist : ∀ l l' : List CMasternode, l'.Sublist l → I l → I l'
  mnb : ∀ call, MnbOk call → I call.man.vMasternodes → I (call.result crypto).vMasternodes
  ping : ∀ env man man₁ mnp i pmn, PingOk env man mnp → I man.vMasternodes →
    man.find mnp.vin = some (i, pmn) →
    I (man.vMasternodes.set i (mnp.checkAndUpdate crypto env man₁ pmn false).2.1)

namespace ListInvariant

variable {I : List CMasternode → Prop} {MnbOk : MnbCall → Prop}
  {PingOk : ManEnv → CMasternodeMan → CMasternodePing → Prop} {man' : CMasternodeMan}

theorem recover (h : ListInvariant crypto I MnbOk PingOk) :
    ∀ {es : List (Sigma fun _ : UInt256 => List CMasternodeBroadcast)} {man : CMasternodeMan},
      (∀ call ∈ recoverCalls crypto env man es, MnbOk call) → I man.vMasternodes →
      I (es.foldl (CMasternodeMan.recover crypto env) man).vMasternodes
  | [], _, _, hman => hman
  | e :: es, man, hcalls, hman => by
    have hfirst : I (man.recover crypto env e).vMasternodes := by
      rw [recover_vMasternodes]
      cases hmnb : man.reprocessed env e with
      | none => exact hman
      | some mnb =>
        refine h.mnb ⟨env, man.touchRequest e.1, none, mnb⟩
          (hcalls _ (List.mem_append_left _ ?_)) hman
        rw [hmnb]
        exact List.mem_singleton.mpr rfl
    rw [List.foldl_cons]
    exact h.recover (fun call hcall => hcalls call (List.mem_append_right _ hcall)) hfirst

theorem step (h : ListInvariant crypto I MnbOk PingOk) {e : ManEnv × ManEvent}
    (hcalls : ∀ call ∈ eventCalls crypto man e, MnbOk call)
    (hpings : ∀ mnp, e.2 = .ping mnp → PingOk e.1 man mnp) (hman : I man.vMasternodes)
    (hstep : man.step crypto e = some man') : I man'.vMasternodes := by
  obtain ⟨env, e⟩ := e
  cases e with
  | announce pfrom a =>
    obtain rfl := Option.some.inj hstep
    rw [CMasternodeMan.processAnnounce]
    by_cases hoff : (env.fLiteMode || !env.isBlockchainSynced) = true
    · rw [if_pos hoff]
      exact hman
    · have hcall : MnbOk ⟨env, man, some pfrom, a.read⟩ := hcalls _ (by simp [eventCalls, hoff])
      have hafter := h.mnb _ hcall hman
      rw [if_neg hoff]
      dsimp only
      split_ifs
      · exact hafter
      · exact hafter
  | ping mnp =>
    obtain rfl := Option.some.inj hstep
    rcases processPing_vMasternodes crypto env man mnp with heq |
      ⟨man₁, i, pmn, hfind, heq⟩
    · show I (man.processPing crypto env mnp).vMasternodes
      rw [heq]
      exact hman
    · show I (man.processPing crypto env mnp).vMasternodes
      rw [heq]
      exact h.ping env man man₁ mnp i pmn (hpings mnp rfl) hman hfind
  | verify v mnv => exact h.score _ _ (processVerify_scored hstep) hman
  | checkAndRemove c =>
    obtain rfl := Option.some.inj hstep
    rw [CMasternodeMan.checkAndRemove]
    by_cases hoff : (!env.isMasternodeListSynced) = true
    · rw [if_pos hoff]
      exact hman
    · rw [if_neg hoff]
      dsimp only
      rw [expire_vMasternodes]
      refine h.recover (fun call hcall => hcalls call ?_) ?_
      · rw [eventCalls]
        dsimp only
        rw [if_neg hoff]
        exact hcall
      · exact h.sublist _ _ (removeLoop_sublist c _ _ _) (h.check env _ _ hman)

theorem run (h : ListInvariant crypto I MnbOk PingOk) {es : List (ManEnv × ManEvent)}
    (hrun : ManRun crypto man es man') (hcalls : ∀ call ∈ runCalls crypto man es, MnbOk call)
    (hpings : ∀ p ∈ runPings crypto man es, PingOk p.1 p.2.1 p.2.2) (hman : I man.vMasternodes) :
    I man'.vMasternodes := by
  induction hrun with
  | nil man => exact hman
  | @cons man man₁ man' e es ht _ ih =>
    have ht' : man.step crypto e = some man₁ := ht
    rw [runCalls, ht'] at hcalls
    rw [runPings, ht'] at hpings
    refine ih (fun call hcall => hcalls call (List.mem_append_right _ hcall))
      (fun p hp => hpings p (List.mem_append_right _ hp)) ?_
    refine h.step (fun call hcall => hcalls call (List.mem_append_left _ hcall)) ?_ hman ht'
    intro mnp hmnp
    refine hpings (e.1, man, mnp) (List.mem_append_left _ ?_)
    rw [hmnp]
    exact List.mem_singleton.mpr rfl

end ListInvariant

end Invariant

end Stonecoin
