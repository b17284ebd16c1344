/-
`ProcessVerifyBroadcast` and the scores of the masternodes (`masternodeman.cpp`).

Both signatures are checked the wrong way round: the function returns when a signature does
verify.  So a verification counts if neither signature is good, and not if both are.

  * `verified_only_iff`: when only valid verifications move scores.
-/
import Stonecoin.VerifyReplies

namespace Stonecoin

variable (crypto : MasternodeCrypto) (v : VerifyEnv) (man : CMasternodeMan)
  (mnv : CMasternodeVerification)

/-- The masternodes and the two texts that an admitted verification is about. -/
structure VerifyAbout where
  i : ℕ
  pmn1 : CMasternode
  pmn2 : CMasternode
  strMessage1 : String
  strMessage2 : String

/-- A verification passes the guards before the signatures. -/
structure VerifyAdmitted (a : VerifyAbout) : Prop where
  unseen : man.mapSeenMasternodeVerification.lookup (mnv.getHash crypto) = none
  recent : v.currentHeight - MAX_POSE_BLOCKS ≤ mnv.nBlockHeight
  apart : mnv.vin1.prevout ≠ mnv.vin2.prevout
  ranked : getMasternodeRank v.ranks man.vMasternodes mnv.vin2 mnv.nBlockHeight
    MIN_POSE_PROTO_VERSION true ≠ -1
  rank : getMasternodeRank v.ranks man.vMasternodes mnv.vin2 mnv.nBlockHeight
    MIN_POSE_PROTO_VERSION true ≤ MAX_POSE_RANK
  first : man.find mnv.vin1 = some (a.i, a.pmn1)
  second : ∃ j, man.find mnv.vin2 = some (j, a.pmn2)
  addr : a.pmn1.addr = mnv.addr
  texts : ∃ blockHash, v.ranks.getBlockHash mnv.nBlockHeight = some blockHash ∧
    a.strMessage1 = verifyMessage1 crypto mnv.addr mnv.nonce blockHash ∧
    a.strMessage2 = a.strMessage1 ++ crypto.outPointToString mnv.vin1.prevout ++
      crypto.outPointToString mnv.vin2.prevout

/-- The signature of the masternode that was verified. -/
def VerifyAbout.signed1 (a : VerifyAbout) : Bool :=
  crypto.verifyMessage a.pmn1.pubKeyMasternode mnv.vchSig1 a.strMessage1

/-- The signature of the masternode that verified it. -/
def VerifyAbout.signed2 (a : VerifyAbout) : Bool :=
  crypto.verifyMessage a.pmn2.pubKeyMasternode mnv.vchSig2 a.strMessage2

/-- The masternode at the place `i` gets one less, unless it is verified; the others with the
address get one more. -/
def scoresMoved (i : ℕ) (mns : List CMasternode) : List CMasternode :=
  mns.mapIdx fun j mn =>
    if j = i then mn.credited
    else if mn.addr = mnv.addr ∧ mn.vin.prevout ≠ mnv.vin1.prevout then mn.increasePoSeBanScore
    else mn

def CMasternodeMan.scores : List ℤ := man.vMasternodes.map (·.nPoSeBanScore)

/-- **Only valid verifications move scores**, by one and within the bounds, and valid ones do. -/
structure VerifiedOnly : Prop where
  valid : (man.processVerifyBroadcast crypto v mnv).scores ≠ man.scores →
    ∃ a, VerifyAdmitted crypto v man mnv a ∧ a.signed1 crypto mnv = true ∧
      a.signed2 crypto mnv = true ∧
      (man.processVerifyBroadcast crypto v mnv).vMasternodes =
        scoresMoved mnv a.i man.vMasternodes
  acted : ∀ a, VerifyAdmitted crypto v man mnv a → a.signed1 crypto mnv = true →
    a.signed2 crypto mnv = true →
      (man.processVerifyBroadcast crypto v mnv).vMasternodes =
        scoresMoved mnv a.i man.vMasternodes
  clamped : (∀ score ∈ man.scores,
      -MASTERNODE_POSE_BAN_MAX_SCORE ≤ score ∧ score ≤ MASTERNODE_POSE_BAN_MAX_SCORE) →
    ∀ score ∈ (man.processVerifyBroadcast crypto v mnv).scores,
      -MASTERNODE_POSE_BAN_MAX_SCORE ≤ score ∧ score ≤ MASTERNODE_POSE_BAN_MAX_SCORE

/-- There is no score that the verification could move. -/
def VerifyAbout.Settled (a : VerifyAbout) : Prop :=
  a.pmn1.isPoSeVerified = true ∧ ∀ mn ∈ man.vMasternodes, mn.addr = mnv.addr →
    mn.vin.prevout ≠ mnv.vin1.prevout → MASTERNODE_POSE_BAN_MAX_SCORE ≤ mn.nPoSeBanScore

/-! ### The guards -/

section Guards

variable {crypto v man mnv} {a b : VerifyAbout}

theorem VerifyAdmitted.unique (ha : VerifyAdmitted crypto v man mnv a)
    (hb : VerifyAdmitted crypto v man mnv b) : a = b := by
  obtain ⟨hash, hhash, htext1, htext2⟩ := ha.texts
  obtain ⟨hash', hhash', htext1', htext2'⟩ := hb.texts
  obtain ⟨j, hsecond⟩ := ha.second
  obtain ⟨j', hsecond'⟩ := hb.second
  obtain rfl := Option.some.inj (hhash.symm.trans hhash')
  obtain ⟨hi, hpmn1⟩ := Prod.mk.inj (Option.some.inj (ha.first.symm.trans hb.first))
  obtain ⟨-, hpmn2⟩ := Prod.mk.inj (Option.some.inj (hsecond.symm.trans hsecond'))
  obtain ⟨i, pmn1, pmn2, strMessage1, strMessage2⟩ := a
  obtain ⟨i', pmn1', pmn2', strMessage1', strMessage2'⟩ := b
  dsimp only at htext1 htext2 htext1' htext2' hi hpmn1 hpmn2
  subst htext1 htext1' hi hpmn1 hpmn2
  rw [htext2, htext2']

theorem scoresMoved_eq (ha : VerifyAdmitted crypto v man mnv a) :
    (man.creditVerified a.i a.pmn1 mnv).vMasternodes = scoresMoved mnv a.i man.vMasternodes := by
  obtain ⟨hat, hprevout⟩ := CMasternodeMan.find_eq_some ha.first
  apply List.ext_getElem?
  intro j
  show ((man.vMasternodes.set a.i a.pmn1.credited).map _)[j]? = _
  rw [List.getElem?_map, scoresMoved, List.getElem?_mapIdx]
  by_cases hj : j = a.i
  · subst hj
    rw [List.getElem?_set_self (List.getElem?_eq_some_iff.mp hat).1, hat]
    simp only [Option.map_some, if_true]
    -- the masternode itself is passed over
    rw [if_pos]
    refine .inr ?_
    obtain ⟨score, heq⟩ := CMasternode.Scored.credited a.pmn1
    rw [heq]
    exact hprevout
  · rw [List.getElem?_set_ne (Ne.symm hj)]
    congr 1
    funext mn
    rw [if_neg hj]
    by_cases hother : mn.addr = mnv.addr ∧ mn.vin.prevout ≠ mnv.vin1.prevout
    · rw [if_pos hother, if_neg (by tauto)]
    · rw [if_neg hother, if_pos (by tauto)]

theorem processVerifyBroadcast_admitted (ha : VerifyAdmitted crypto v man mnv a) :
    (man.processVerifyBroadcast crypto v mnv).vMasternodes =
      if a.signed1 crypto mnv || a.signed2 crypto mnv then man.vMasternodes
      else scoresMoved mnv a.i man.vMasternodes := by
  obtain ⟨hash, hhash, htext1, htext2⟩ := ha.texts
  obtain ⟨j, hsecond⟩ := ha.second
  have hmoved := scoresMoved_eq ha
  have hrecent := ha.recent
  have hrank := ha.rank
  rw [CMasternodeMan.processVerifyBroadcast, ha.unseen]
  dsimp only [Option.isSome_none]
  rw [if_neg (by decide), if_neg (by omega), if_neg ha.apart, hhash]
  dsimp only
  rw [if_neg ha.ranked, if_neg (by omega)]
  -- the table of verifications is not looked at again
  have hfirst : CMasternodeMan.find { man with
      mapSeenMasternodeVerification := man.mapSeenMasternodeVerification.insert
        (mnv.getHash crypto) mnv } mnv.vin1 = some (a.i, a.pmn1) := ha.first
  have hsecond' : CMasternodeMan.find { man with
      mapSeenMasternodeVerification := man.mapSeenMasternodeVerification.insert
        (mnv.getHash crypto) mnv } mnv.vin2 = some (j, a.pmn2) := hsecond
  rw [hfirst, hsecond']
  dsimp only
  rw [if_neg (not_not.mpr ha.addr), ← htext1, ← htext2]
  show CMasternodeMan.vMasternodes (if a.signed1 crypto mnv = true then _
    else if a.signed2 crypto mnv = true then _ else _) = _
  cases a.signed1 crypto mnv with
  | true => rfl
  | false =>
    cases a.signed2 crypto mnv with
    | true => rfl
    | false => exact hmoved

theorem processVerifyBroadcast_refused (h : ∀ a, ¬ VerifyAdmitted crypto v man mnv a) :
    (man.processVerifyBroadcast crypto v mnv).vMasternodes = man.vMasternodes := by
  rw [CMasternodeMan.processVerifyBroadcast]
  split
  · rfl
  rename_i hseen
  dsimp only
  split
  · rfl
  rename_i hrecent
  split
  · rfl
  rename_i happart
  cases hhash : v.ranks.getBlockHash mnv.nBlockHeight with
  | none => rfl
  | some blockHash =>
    dsimp only
    split
    · rfl
    rename_i hranked
    split
    · rfl
    rename_i hrank
    split
    · rename_i i pmn1 j pmn2 hfirst hsecond
      split
      · rfl
      rename_i haddr
      refine absurd ?_ (h ⟨i, pmn1, pmn2, verifyMessage1 crypto mnv.addr mnv.nonce blockHash,
        verifyMessage1 crypto mnv.addr mnv.nonce blockHash ++
          crypto.outPointToString mnv.vin1.prevout ++ crypto.outPointToString mnv.vin2.prevout⟩)
      exact ⟨Option.not_isSome_iff_eq_none.mp hseen, not_lt.mp hrecent, happart, hranked,
        not_lt.mp hrank, hfirst, ⟨j, hsecond⟩, not_not.mp haddr, blockHash, hhash, rfl, rfl⟩
    · rfl

/-! ### Scores that cannot move -/

theorem CMasternode.increasePoSeBanScore_eq {mn : CMasternode} :
    mn.increasePoSeBanScore.nPoSeBanScore = mn.nPoSeBanScore ↔
      MASTERNODE_POSE_BAN_MAX_SCORE ≤ mn.nPoSeBanScore := by
  rw [CMasternode.increasePoSeBanScore]
  split_ifs with hlt
  · exact iff_of_false (by simp) (not_le.mpr hlt)
  · exact iff_of_true rfl (not_lt.mp hlt)

theorem CMasternode.credited_eq {mn : CMasternode} :
    mn.credited.nPoSeBanScore = mn.nPoSeBanScore ↔ mn.isPoSeVerified = true := by
  rw [CMasternode.credited, CMasternode.isPoSeVerified]
  by_cases hle : mn.nPoSeBanScore ≤ -MASTERNODE_POSE_BAN_MAX_SCORE
  · rw [decide_eq_true hle]
    exact iff_of_true rfl rfl
  · rw [decide_eq_false hle, Bool.not_false, if_pos rfl, CMasternode.decreasePoSeBanScore,
      if_pos (not_le.mp hle)]
    exact iff_of_false (by simp) (by simp)

theorem scoresMoved_of_settled (ha : VerifyAdmitted crypto v man mnv a)
    (h : a.Settled man mnv) : scoresMoved mnv a.i man.vMasternodes = man.vMasternodes := by
  obtain ⟨hat, -⟩ := CMasternodeMan.find_eq_some ha.first
  apply List.ext_getElem?
  intro j
  rw [scoresMoved, List.getElem?_mapIdx]
  cases hmn : man.vMasternodes[j]? with
  | none => rfl
  | some mn =>
    rw [Option.map_some]
    congr 1
    split_ifs with hj hother
    · subst hj
      obtain rfl := Option.some.inj (hat.symm.trans hmn)
      rw [CMasternode.credited, h.1]
      rfl
    · have hmax := h.2 mn (List.mem_of_getElem? hmn) hother.1 hother.2
      rw [CMasternode.increasePoSeBanScore, if_neg (not_lt.mpr hmax)]
    · rfl

theorem settled_of_scores (ha : VerifyAdmitted crypto v man mnv a)
    (h : (scoresMoved mnv a.i man.vMasternodes).map (·.nPoSeBanScore) = man.scores) :
    a.Settled man mnv := by
  obtain ⟨hat, hprevout⟩ := CMasternodeMan.find_eq_some ha.first
  have hscore : ∀ (j : ℕ) mn, man.vMasternodes[j]? = some mn →
      (if j = a.i then mn.credited
        else if mn.addr = mnv.addr ∧ mn.vin.prevout ≠ mnv.vin1.prevout then
          mn.increasePoSeBanScore
        else mn).nPoSeBanScore = mn.nPoSeBanScore := by
    intro j mn hmn
    have hj := congrArg (fun l => l[j]?) h
    simpa [CMasternodeMan.scores, scoresMoved, hmn] using hj
  refine ⟨?_, fun mn hmn haddr hne => ?_⟩
  · have hi := hscore a.i a.pmn1 hat
    rw [if_pos rfl] at hi
    exact CMasternode.credited_eq.mp hi
  · obtain ⟨j, hj⟩ := List.getElem?_of_mem hmn
    have hmoved := hscore j mn hj
    rw [if_neg, if_pos ⟨haddr, hne⟩] at hmoved
    · exact CMasternode.increasePoSeBanScore_eq.mp hmoved
    · rintro rfl
      obtain rfl := Option.some.inj (hat.symm.trans hj)
      exact hne hprevout

/-! ### Bounds -/

def ScoresClamped (mns : List CMasternode) : Prop :=
  ∀ mn ∈ mns, -MASTERNODE_POSE_BAN_MAX_SCORE ≤ mn.nPoSeBanScore ∧
    mn.nPoSeBanScore ≤ MASTERNODE_POSE_BAN_MAX_SCORE

theorem scoresMoved_clamped {i : ℕ} {mns : List CMasternode} (h : ScoresClamped mns) :
    ScoresClamped (scoresMoved mnv i mns) := by
  intro mn hmn
  obtain ⟨j, hlt, rfl⟩ := List.mem_mapIdx.mp hmn
  obtain ⟨hlow, hhigh⟩ := h mns[j] (List.getElem_mem hlt)
  generalize mns[j] = mn at hlow hhigh
  split_ifs
  · rw [CMasternode.credited, CMasternode.decreasePoSeBanScore]
    split_ifs
    · dsimp only
      omega
    · exact ⟨hlow, hhigh⟩
    · exact ⟨hlow, hhigh⟩
  · rw [CMasternode.increasePoSeBanScore]
    split_ifs
    · dsimp only
      omega
    · exact ⟨hlow, hhigh⟩
  · exact ⟨hlow, hhigh⟩

end Guards

variable {crypto v man mnv} in
theorem processVerifyBroadcast_clamped
    (h : ∀ score ∈ man.scores,
      -MASTERNODE_POSE_BAN_MAX_SCORE ≤ score ∧ score ≤ MASTERNODE_POSE_BAN_MAX_SCORE) :
    ∀ score ∈ (man.processVerifyBroadcast crypto v mnv).scores,
      -MASTERNODE_POSE_BAN_MAX_SCORE ≤ score ∧ score ≤ MASTERNODE_POSE_BAN_MAX_SCORE := by
  have hmns : ScoresClamped man.vMasternodes := fun mn hmn => h _ (List.mem_map_of_mem hmn)
  have hall : ScoresClamped (man.processVerifyBroadcast crypto v mnv).vMasternodes := by
    by_cases hadmitted : ∃ a, VerifyAdmitted crypto v man mnv a
    · obtain ⟨a, ha⟩ := hadmitted
      rw [processVerifyBroadcast_admitted ha]
      split_ifs
      · exact hmns
      · exact scoresMoved_clamped hmns
    · rw [processVerifyBroadcast_refused (not_exists.mp hadmitted)]
      exact hmns
  intro score hscore
  obtain ⟨mn, hmn, rfl⟩ := List.mem_map.mp hscore
  exact hall mn hmn

/-! ### The claim of the guards -/

/-- **When only valid verifications move scores**: an admitted verification with two good
signatures, or with none, finds no score that it could move. -/
theorem verified_only_iff : VerifiedOnly crypto v man mnv ↔
    ∀ a, VerifyAdmitted crypto v man mnv a → a.signed1 crypto mnv = a.signed2 crypto mnv →
      a.Settled man mnv := by
  constructor
  · rintro ⟨hvalid, hacted, -⟩ a ha hsame
    have hresult := processVerifyBroadcast_admitted ha
    cases hsigned : a.signed1 crypto mnv with
    | true =>
      -- both are good, and the function returns
      rw [hsigned, Bool.true_or, if_pos rfl] at hresult
      have hmoved := hacted a ha hsigned (hsame.symm.trans hsigned)
      apply settled_of_scores ha
      rw [← hmoved, hresult]
      rfl
    | false =>
      rw [← hsame, hsigned, Bool.false_or, if_neg Bool.false_ne_true] at hresult
      apply settled_of_scores ha
      rw [← hresult]
      by_contra hchanged
      obtain ⟨b, hb, hgood, -⟩ := hvalid hchanged
      rw [ha.unique hb] at hsigned
      exact absurd (hsigned.symm.trans hgood) Bool.false_ne_true
  · intro h
    have hsame : ∀ a, VerifyAdmitted crypto v man mnv a →
        (man.processVerifyBroadcast crypto v mnv).vMasternodes = man.vMasternodes := by
      intro a ha
      rw [processVerifyBroadcast_admitted ha]
      split_ifs with hsigned
      · rfl
      · rw [Bool.or_eq_true, not_or, Bool.not_eq_true, Bool.not_eq_true] at hsigned
        exact scoresMoved_of_settled ha (h a ha (hsigned.1.trans hsigned.2.symm))
    refine ⟨fun hchanged => absurd ?_ hchanged, fun a ha h1 h2 => ?_,
      processVerifyBroadcast_clamped⟩
    · show List.map _ _ = List.map _ _
      by_cases hadmitted : ∃ a, VerifyAdmitted crypto v man mnv a
      · obtain ⟨a, ha⟩ := hadmitted
        rw [hsame a ha]
      · rw [processVerifyBroadcast_refused (not_exists.mp hadmitted)]
    · rw [hsame a ha, scoresMoved_of_settled ha (h a ha (h1.trans h2.symm))]

def neighbours : CMasternodeMan :=
  { CMasternodeMan.init with
    vMasternodes := [{ masternodeAt 1 .MASTERNODE_ENABLED with pubKeyMasternode := [1] },
      { masternodeAt 2 .MASTERNODE_ENABLED with pubKeyMasternode := [2] }] }

/-- A verification of the first by the second, signed by neither. -/
def forgedVerification : CMasternodeVerification :=
  ⟨⟨⟨1, 0⟩, [], 0⟩, ⟨⟨2, 0⟩, [], 0⟩, ⟨[], 0⟩, 42, 1, [9], [9]⟩

/-- **It moves the scores of both.** -/
theorem forged_verification_counts :
    (neighbours.processVerifyBroadcast keyCrypto askedPeer forgedVerification).scores = [-1, 1] ∧
      ¬ VerifiedOnly keyCrypto askedPeer neighbours forgedVerification := by
  refine ⟨by decide +kernel, fun h => ?_⟩
  obtain ⟨a, ha, hsigned, -⟩ := h.valid (by decide +kernel)
  obtain ⟨-, hpmn1⟩ := Prod.mk.inj (Option.some.inj ha.first)
  rw [VerifyAbout.signed1, ← hpmn1] at hsigned
  have hkey : ([9] : List UInt8) = [1] := of_decide_eq_true hsigned
  exact absurd hkey (by decide)

end Stonecoin
