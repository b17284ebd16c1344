/-
Who owns the collateral of a masternode.

`CheckOutpoint` looks at the amount of the named output, and `IsVinAssociatedWithPubkey` at
the scripts of all outputs of the transaction.  So the owner of one output of a transaction
can announce another one (`others_output_taken`).  Where an output of the transaction that
pays the announced key comes with a named output that pays it, every masternode had an unspent
output of its own when it was put in the list (`collateral_owned`).
-/
import Stonecoin.MasternodeRuns

namespace Stonecoin

variable (crypto : MasternodeCrypto)

/-- The output at an outpoint is unspent, has a valid amount and pays a key. -/
def Owned (env : ManEnv) (out : COutPoint) (key : CPubKey) : Prop :=
  ∃ coins o, env.getCoins out.hash = some coins ∧ coins.vout[out.n]? = some o ∧
    o.isNull = false ∧ isValidMasternode o.nValue env.height = true ∧
    o.scriptPubKey = getScriptForDestination (.keyID (crypto.getID key))

/-- A call puts a masternode with these members in the list. -/
def MnbCall.Adds (call : MnbCall) (mn : CMasternode) : Prop :=
  call.man.find mn.vin = none ∧ ∃ mn₀ ∈ (call.result crypto).vMasternodes, mn₀.vin = mn.vin ∧
    mn₀.pubKeyCollateralAddress = mn.pubKeyCollateralAddress

/-- When an output of the transaction pays the announced key, the named one does. -/
def MnbCall.NamesItsOutput (call : MnbCall) : Prop :=
  call.man.find call.mnb.vin = none →
    CMasternodeBroadcast.isVinAssociatedWithPubkey crypto call.env call.mnb.vin
      call.mnb.pubKeyCollateralAddress = true →
    ∀ coins o, call.env.getCoins call.mnb.vin.prevout.hash = some coins →
      coins.vout[call.mnb.vin.prevout.n]? = some o →
      o.scriptPubKey =
        getScriptForDestination (.keyID (crypto.getID call.mnb.pubKeyCollateralAddress))

/-- **Every masternode owned its collateral** when it was put in the list, and no two have one
outpoint. -/
structure CollateralOwned (es : List (ManEnv × ManEvent)) (man : CMasternodeMan) : Prop where
  owned : ∀ mn ∈ man.vMasternodes, ∃ call ∈ runCalls crypto .init es, call.Adds crypto mn ∧
    Owned crypto call.env mn.vin.prevout mn.pubKeyCollateralAddress
  apart : (man.vMasternodes.map (·.vin.prevout)).Nodup

/-! ### Owners -/

def CMasternode.SameOwner (mn mn' : CMasternode) : Prop :=
  mn'.vin = mn.vin ∧ mn'.pubKeyCollateralAddress = mn.pubKeyCollateralAddress

namespace CMasternode.SameOwner

variable {mn mn' mn'' : CMasternode}

theorem refl (mn : CMasternode) : mn.SameOwner mn := ⟨rfl, rfl⟩

theorem trans (h : mn.SameOwner mn') (h' : mn'.SameOwner mn'') : mn.SameOwner mn'' :=
  ⟨h'.1.trans h.1, h'.2.trans h.2⟩

theorem of_upkeep (h : mn.Upkeep mn') : mn.SameOwner mn' := ⟨h.vin, h.pubKeyCollateralAddress⟩

theorem of_scored (h : mn.Scored mn') : mn.SameOwner mn' := by
  obtain ⟨score, rfl⟩ := h
  exact ⟨rfl, rfl⟩

end CMasternode.SameOwner

section Updates

variable (env : ManEnv) (man : CMasternodeMan)

theorem checkAndUpdate_owner (mnp : CMasternodePing) (pmn : CMasternode)
    (fFromNewBroadcast : Bool) :
    pmn.SameOwner (mnp.checkAndUpdate crypto env man pmn fFromNewBroadcast).2.1 := by
  rw [CMasternodePing.checkAndUpdate]
  split_ifs
  · exact .refl pmn
  · have hping : pmn.SameOwner { pmn with lastPing := mnp } := ⟨rfl, rfl⟩
    exact hping.trans (.of_upkeep (CMasternode.check_upkeep _ _ _))

theorem takePing_owner (pmn : CMasternode) (mnp : CMasternodePing) :
    pmn.SameOwner (pmn.takePing crypto env man mnp).2 := by
  have hchecked := checkAndUpdate_owner crypto env man mnp pmn true
  rw [CMasternode.takePing]
  dsimp only
  split_ifs
  · exact ⟨rfl, rfl⟩
  · exact ⟨hchecked.1, hchecked.2⟩
  · exact hchecked

theorem updateFromNewBroadcast_owner (pmn : CMasternode) (mnb : CMasternodeBroadcast) :
    pmn.SameOwner (pmn.updateFromNewBroadcast crypto env man mnb).2.1 := by
  have hrenewed : pmn.SameOwner (pmn.renewed mnb) := ⟨rfl, rfl⟩
  have hping := hrenewed.trans
    (takePing_owner crypto env man (pmn.renewed mnb) mnb.lastPing)
  rw [CMasternode.updateFromNewBroadcast]
  dsimp only
  split_ifs
  · exact .refl pmn
  · exact ⟨hping.1, hping.2⟩
  · exact hping

theorem update_owner (pmn : CMasternode) (mnb : CMasternodeBroadcast) :
    pmn.SameOwner (mnb.update crypto env man pmn).2.1 := by
  have hcheck : pmn.SameOwner (pmn.check env man.size false) :=
    .of_upkeep (CMasternode.check_upkeep _ _ _)
  have hupdate := hcheck.trans (updateFromNewBroadcast_owner crypto env man
    (pmn.check env man.size false) mnb)
  rw [CMasternodeBroadcast.update]
  dsimp only
  split_ifs
  · exact .refl pmn
  · exact .refl pmn
  · exact hcheck
  · exact hcheck
  · exact hcheck
  · exact hupdate.trans (.of_upkeep (CMasternode.check_upkeep _ _ _))
  · exact hupdate
  · exact hcheck

theorem marked_owner (mnb : CMasternodeBroadcast) :
    mnb.toCMasternode.SameOwner (mnb.marked env).toCMasternode := by
  rw [CMasternodeBroadcast.marked]
  split_ifs
  · exact ⟨rfl, rfl⟩
  · exact .refl _

end Updates

variable {crypto} {env : ManEnv} {man : CMasternodeMan}

/-! ### The list -/

/-- What holds of the list as long as the calls of the run name their outputs. -/
structure OwnersKnown (crypto : MasternodeCrypto) (calls : List MnbCall)
    (mns : List CMasternode) : Prop where
  owned : ∀ mn ∈ mns, ∃ call ∈ calls, call.Adds crypto mn ∧
    Owned crypto call.env mn.vin.prevout mn.pubKeyCollateralAddress
  apart : (mns.map (·.vin.prevout)).Nodup

namespace OwnersKnown

variable {calls : List MnbCall} {mns mns' : List CMasternode}

theorem of_forall₂ (h : OwnersKnown crypto calls mns)
    (hsame : List.Forall₂ CMasternode.SameOwner mns mns') : OwnersKnown crypto calls mns' := by
  have hprevouts := map_prevout_eq (fun _ _ hmn => hmn.1) hsame
  refine ⟨fun mn' hmn' => ?_, hprevouts ▸ h.apart⟩
  obtain ⟨i, hi, rfl⟩ := List.getElem_of_mem hmn'
  have hi' : i < mns.length := hsame.length_eq ▸ hi
  have howner := hsame.get hi' hi
  obtain ⟨call, hcall, ⟨hnew, mn₀, hmn₀, hvin, hkey⟩, howned⟩ := h.owned _ (List.get_mem mns ⟨i, hi'⟩)
  refine ⟨call, hcall, ⟨?_, mn₀, hmn₀, hvin.trans howner.1.symm, hkey.trans howner.2.symm⟩, ?_⟩
  · exact (congrArg call.man.find howner.1).trans hnew
  · have hgoal := howned
    rw [← howner.1, ← howner.2] at hgoal
    exact hgoal

theorem append (h : OwnersKnown crypto calls mns) {mn : CMasternode}
    (hnew : ∀ m ∈ mns, m.vin.prevout ≠ mn.vin.prevout)
    (howned : ∃ call ∈ calls, call.Adds crypto mn ∧
      Owned crypto call.env mn.vin.prevout mn.pubKeyCollateralAddress) :
    OwnersKnown crypto calls (mns ++ [mn]) := by
  refine ⟨fun m hm => ?_, ?_⟩
  · rcases List.mem_append.mp hm with hm | hm
    · exact h.owned m hm
    · obtain rfl := List.mem_singleton.mp hm
      exact howned
  · rw [List.map_append, List.nodup_append]
    refine ⟨h.apart, List.nodup_singleton _, fun out hout out' hout' => ?_⟩
    obtain ⟨m, hm, rfl⟩ := List.mem_map.mp hout
    obtain rfl := List.mem_singleton.mp hout'
    exact hnew m hm

end OwnersKnown

theorem checkOutpoint_valid {mnb : CMasternodeBroadcast}
    (h : mnb.checkOutpoint crypto env = .valid) :
    (∃ coins o, env.getCoins mnb.vin.prevout.hash = some coins ∧
      coins.vout[mnb.vin.prevout.n]? = some o ∧ o.isNull = false ∧
      isValidMasternode o.nValue env.height = true) ∧
    CMasternodeBroadcast.isVinAssociatedWithPubkey crypto env mnb.vin
      mnb.pubKeyCollateralAddress = true := by
  rw [CMasternodeBroadcast.checkOutpoint] at h
  by_cases hassociated : CMasternodeBroadcast.isVinAssociatedWithPubkey crypto env mnb.vin
      mnb.pubKeyCollateralAddress = true
  · refine ⟨?_, hassociated⟩
    simp only [hassociated, Bool.not_true, Bool.false_eq_true, if_false] at h
    split_ifs at h with hown hsig
    cases hcoins : env.getCoins mnb.vin.prevout.hash with
    | none =>
      rw [hcoins] at h
      exact absurd h (by simp)
    | some coins =>
      rw [hcoins] at h
      dsimp only at h
      split_ifs at h with havailable hvalue
      cases ho : coins.vout[mnb.vin.prevout.n]? with
      | none => simp [CCoins.isAvailable, ho] at havailable
      | some o =>
        refine ⟨coins, o, rfl, ho, ?_, ?_⟩
        · simpa [CCoins.isAvailable, ho] using havailable
        · simpa [ho] using hvalue
  · -- without an output that pays the key the answer is no
    rw [Bool.not_eq_true] at hassociated
    simp only [hassociated, Bool.not_false, if_true] at h
    split_ifs at h
    split at h
    · exact absurd h (by simp)
    · split_ifs at h

theorem OwnersKnown.call {calls : List MnbCall} {call : MnbCall} (hmem : call ∈ calls)
    (hnames : call.NamesItsOutput crypto) (h : OwnersKnown crypto calls call.man.vMasternodes) :
    OwnersKnown crypto calls (call.result crypto).vMasternodes := by
  obtain ⟨env, man, pfrom, mnb⟩ := call
  have heffect := checkMnb_effect crypto env man mnb pfrom
  generalize hl : (man.checkMnbAndUpdateMasternodeList crypto env pfrom mnb).1.vMasternodes = l
    at heffect
  show OwnersKnown crypto calls
    (man.checkMnbAndUpdateMasternodeList crypto env pfrom mnb).1.vMasternodes
  rw [hl]
  cases heffect with
  | same => exact h
  | renewed man₁ i pmn _ hfind =>
    exact h.of_forall₂ (forall₂_set .refl (update_owner crypto env man₁ pmn _) (CMasternodeMan.find_eq_some hfind).1)
  | enlisted hnew hvalid =>
    obtain ⟨hvin, hkey⟩ := marked_owner env mnb
    obtain ⟨⟨coins, o, hcoins, ho, hunspent, hvalue⟩, hassociated⟩ := checkOutpoint_valid hvalid
    rw [hvin] at hcoins ho hassociated
    rw [hkey] at hassociated
    refine h.append ?_ ⟨_, hmem, ⟨?_, _, ?_, rfl, rfl⟩, coins, o, ?_, ?_, hunspent, hvalue, ?_⟩
    · rw [hvin]
      exact CMasternodeMan.find_eq_none.mp hnew
    · rw [hvin]
      exact hnew
    · show _ ∈ (man.checkMnbAndUpdateMasternodeList crypto env pfrom mnb).1.vMasternodes
      rw [hl]
      exact List.mem_append_right _ (List.mem_singleton.mpr rfl)
    · rw [hvin]
      exact hcoins
    · rw [hvin]
      exact ho
    · rw [hkey]
      exact hnames hnew hassociated coins o hcoins ho

theorem ownersKnown_invariant (calls : List MnbCall) :
    ListInvariant crypto (OwnersKnown crypto calls)
      (fun call => call ∈ calls ∧ call.NamesItsOutput crypto) (fun _ _ _ => True) where
  score := fun _ _ hscored h => h.of_forall₂ (hscored.imp fun _ _ => .of_scored)
  check := fun _ n _ h => h.of_forall₂ (List.forall₂_map_right_iff.mpr
    (List.forall₂_same.mpr fun mn _ => .of_upkeep (CMasternode.check_upkeep n false mn)))
  sublist := fun _ _ hsub h =>
    ⟨fun mn hmn => h.owned mn (hsub.subset hmn), (hsub.map _).nodup h.apart⟩
  mnb := fun _ hcall h => h.call hcall.1 hcall.2
  ping := fun env _ man₁ mnp _ pmn _ h hfind => h.of_forall₂
    (forall₂_set .refl (checkAndUpdate_owner crypto env man₁ mnp pmn false) (CMasternodeMan.find_eq_some hfind).1)

/-- **Masternodes own their collateral** in every run whose announcements name the output that
pays their key, as soon as an output of the transaction does. -/
theorem collateral_owned {es : List (ManEnv × ManEvent)} {man : CMasternodeMan}
    (hrun : ManRun crypto .init es man)
    (hnames : ∀ call ∈ runCalls crypto .init es, call.NamesItsOutput crypto) :
    CollateralOwned crypto es man := by
  have hinit : OwnersKnown crypto (runCalls crypto .init es) CMasternodeMan.init.vMasternodes :=
    ⟨fun mn hmn => absurd hmn List.not_mem_nil, List.nodup_nil⟩
  have hend := (ownersKnown_invariant (runCalls crypto .init es)).run hrun
    (fun call hcall => ⟨hcall, hnames call hcall⟩) (fun _ _ => trivial) hinit
  exact ⟨hend.owned, hend.apart⟩

/-! ### A transaction with two owners -/

/-- A signature is the key it belongs to, and a key is known by its bytes. -/
def keyCrypto : MasternodeCrypto where
  verifyMessage := fun key vchSig _ => vchSig = key
  getID := fun key => UInt160.ofBytes key
  addrToString := fun _ => ""
  idToString := fun _ => ""
  hashToString := fun _ => ""
  txInToString := fun _ => ""
  outPointToString := fun _ => ""
  hashBroadcast := fun vin _ sigTime => vin.prevout.hash + BitVec.ofInt 256 sigTime
  hashPing := fun vin sigTime => vin.prevout.hash + BitVec.ofInt 256 sigTime
  hashVerification := fun vin1 _ _ _ _ => vin1.prevout.hash

/-- An output of 1500 coins to the key `[k]`. -/
def collateralOf (k : UInt8) : CTxOut :=
  CTxOut.of (1500 * COIN) (getScriptForDestination (.keyID (keyCrypto.getID [k])))

/-- The transaction 9 has an output to the key `[1]` and one to the key `[2]`. -/
def twoOwnersEnv : ManEnv where
  fLiteMode := false
  isBlockchainSynced := true
  isMasternodeListSynced := true
  isSynced := true
  shutdownRequested := false
  getTime := 1500000000
  getAdjustedTime := 1500000000
  fMasterNode := false
  activePubKeyMasternode := []
  activeVin := CTxIn.default
  minPaymentsProto := 70206
  networkIsMain := true
  mainnetDefaultPort := 22323
  nMasternodeMinimumConfirmations := 15
  isValidNetAddr := fun _ => true
  getCoins := fun hash =>
    if hash = 9 then some ⟨false, [collateralOf 1, collateralOf 2], 100, 1⟩ else none
  height := 1000
  getTransaction := fun hash =>
    if hash = 9 then some (⟨9, 1, [], [collateralOf 1, collateralOf 2], 0⟩, 5) else none
  mapBlockIndex := fun hash => if hash = 5 then some 100 else none
  blockTime := fun _ => 1400000000

def announceOutput (n : ℕ) : MnAnnounce :=
  ⟨⟨⟨9, n⟩, [], 4294967295⟩, ⟨[], 22323⟩, [2], [3], [2], 1490000000, 70211, CMasternodePing.empty⟩

def announceRun (n : ℕ) : List (ManEnv × ManEvent) :=
  [(twoOwnersEnv, .announce [] (announceOutput n))]

/-- The state after it. -/
def announced (n : ℕ) : CMasternodeMan :=
  CMasternodeMan.init.processAnnounce keyCrypto twoOwnersEnv [] (announceOutput n)

theorem collateral_owned_one : ManRun keyCrypto .init (announceRun 1) (announced 1) ∧
    (∀ call ∈ runCalls keyCrypto .init (announceRun 1), call.NamesItsOutput keyCrypto) ∧
    (announced 1).vMasternodes.length = 1 ∧
    CollateralOwned keyCrypto (announceRun 1) (announced 1) := by
  have hrun : ManRun keyCrypto .init (announceRun 1) (announced 1) := .cons rfl (.nil _)
  have hnames : ∀ call ∈ runCalls keyCrypto .init (announceRun 1),
      call.NamesItsOutput keyCrypto := by
    intro call hcall
    obtain rfl := List.mem_singleton.mp hcall
    intro _ _ coins o hcoins ho
    obtain rfl := Option.some.inj hcoins
    obtain rfl := Option.some.inj ho
    rfl
  exact ⟨hrun, hnames, by decide +kernel, collateral_owned hrun hnames⟩

/-- **The owner of the second output has taken the first.** -/
theorem others_output_taken : ManRun keyCrypto .init (announceRun 0) (announced 0) ∧
    (announced 0).vMasternodes.map (fun mn => (mn.vin.prevout, mn.pubKeyCollateralAddress)) =
      [(⟨9, 0⟩, [2])] ∧
    ¬ CollateralOwned keyCrypto (announceRun 0) (announced 0) := by
  have hlist : (announced 0).vMasternodes.map
      (fun mn => (mn.vin.prevout, mn.pubKeyCollateralAddress)) = [(⟨9, 0⟩, [2])] := by
    decide +kernel
  refine ⟨.cons rfl (.nil _), hlist, fun h => ?_⟩
  obtain ⟨mn, hmn, heq⟩ := List.mem_map.mp
    (show ((⟨9, 0⟩, [2]) : COutPoint × CPubKey) ∈ (announced 0).vMasternodes.map
      fun mn => (mn.vin.prevout, mn.pubKeyCollateralAddress) by rw [hlist]; simp)
  obtain ⟨hout, hkey⟩ := Prod.mk.inj heq
  obtain ⟨call, hcall, -, coins, o, hcoins, ho, -, -, hscript⟩ := h.owned mn hmn
  obtain rfl := List.mem_singleton.mp hcall
  rw [hout] at hcoins ho
  rw [hkey] at hscript
  obtain rfl := Option.some.inj hcoins
  obtain rfl := Option.some.inj ho
  exact absurd hscript (by decide +kernel)

end Stonecoin
