/-
The ranks of masternodes by their scores for a block (`masternodeman.cpp`).

Three functions build the same ranking, each with its own filter: `GetMasternodeRank` takes
enabled masternodes or those valid for payment, `GetMasternodeByRank` takes all masternodes
where the other one asks for validity.  So they agree for enabled masternodes, and otherwise
where there is no difference (`ranks_agree_iff`).

Scores are any function of block and outpoint.
-/
import Stonecoin.ArithUint256
import Stonecoin.Masternode
import Stonecoin.Ranking

namespace Stonecoin

open Ranking

/-- What the ranks are computed from, beside the list of masternodes. -/
structure RankEnv where
  /-- `GetBlockHash`. -/
  getBlockHash : ℤ → Option UInt256
  /-- `CMasternode::CalculateScore`. -/
  calculateScore : UInt256 → COutPoint → UInt256
  /-- `SPORK_14_REQUIRE_SENTINEL_FLAG` is active. -/
  spork14 : Bool

def compareScoreMN (t1 t2 : ℤ × CMasternode) : Bool :=
  if t1.1 ≠ t2.1 then t1.1 < t2.1 else t1.2.vin.lt t2.2.vin

/-! ### The three functions -/

section Functions

variable (env : RankEnv) (vMasternodes : List CMasternode)

def vecMasternodeScores (blockHash : UInt256) (passes : CMasternode → Bool) :
    List (ℤ × CMasternode) :=
  (vMasternodes.filter passes).map fun mn =>
    (getCompact (env.calculateScore blockHash mn.vin.prevout), mn)

def ranked (nMinProtocol : ℤ) (fOnlyActive : Bool) (mn : CMasternode) : Bool :=
  if mn.nProtocolVersion < nMinProtocol then false
  else if fOnlyActive then mn.isEnabled
  else mn.isValidForPayment env.spork14

def rankedBy (nMinProtocol : ℤ) (fOnlyActive : Bool) (mn : CMasternode) : Bool :=
  if mn.nProtocolVersion < nMinProtocol then false
  else if fOnlyActive && !mn.isEnabled then false
  else true

def getMasternodeRank (vin : CTxIn) (nBlockHeight nMinProtocol : ℤ) (fOnlyActive : Bool) : ℤ :=
  match env.getBlockHash nBlockHeight with
  | none => -1
  | some blockHash =>
    rankFrom (fun s => s.2.vin.prevout = vin.prevout) 0 <| sortDown compareScoreMN <|
      vecMasternodeScores env vMasternodes blockHash (ranked env nMinProtocol fOnlyActive)

def ranksLoop : ℤ → List (ℤ × CMasternode) → List (ℤ × CMasternode)
  | _, [] => []
  | nRank, s :: scores => (nRank + 1, s.2) :: ranksLoop (nRank + 1) scores

def getMasternodeRanks (nBlockHeight nMinProtocol : ℤ) : List (ℤ × CMasternode) :=
  match env.getBlockHash nBlockHeight with
  | none => []
  | some blockHash =>
    ranksLoop 0 <| sortDown compareScoreMN <|
      vecMasternodeScores env vMasternodes blockHash fun mn =>
        !(mn.nProtocolVersion < nMinProtocol || !mn.isEnabled)

def getMasternodeByRank (nRank nBlockHeight nMinProtocol : ℤ) (fOnlyActive : Bool) :
    Option CMasternode :=
  match env.getBlockHash nBlockHeight with
  | none => none
  | some blockHash =>
    Option.map Prod.snd <| itemFrom nRank 0 <| sortDown compareScoreMN <|
      vecMasternodeScores env vMasternodes blockHash (rankedBy nMinProtocol fOnlyActive)

/-- **The functions agree**: on the masternode of a rank, on the list of ranks, and whatever
the order of the masternodes; the ranks are the numbers from one on. -/
structure RanksAgree (nBlockHeight nMinProtocol : ℤ) (fOnlyActive : Bool) : Prop where
  byRank : ∀ r mn, r ≠ -1 → mn ∈ vMasternodes →
    (getMasternodeByRank env vMasternodes r nBlockHeight nMinProtocol fOnlyActive = some mn ↔
      getMasternodeRank env vMasternodes mn.vin nBlockHeight nMinProtocol fOnlyActive = r)
  known : ∀ r mn, getMasternodeByRank env vMasternodes r nBlockHeight nMinProtocol fOnlyActive =
    some mn → mn ∈ vMasternodes
  ranks : fOnlyActive = true → ∀ r mn, (r, mn) ∈ getMasternodeRanks env vMasternodes nBlockHeight
    nMinProtocol ↔ mn ∈ vMasternodes ∧ r ≠ -1 ∧
      getMasternodeRank env vMasternodes mn.vin nBlockHeight nMinProtocol true = r
  numbers : ((vMasternodes.filter (ranked env nMinProtocol fOnlyActive)).map fun mn =>
      getMasternodeRank env vMasternodes mn.vin nBlockHeight nMinProtocol fOnlyActive).Perm
    ((List.range (vMasternodes.filter (ranked env nMinProtocol fOnlyActive)).length).map
      fun i : ℕ => (i : ℤ) + 1)
  anyOrder : ∀ vMasternodes', vMasternodes.Perm vMasternodes' →
    (∀ vin, getMasternodeRank env vMasternodes vin nBlockHeight nMinProtocol fOnlyActive =
      getMasternodeRank env vMasternodes' vin nBlockHeight nMinProtocol fOnlyActive) ∧
    getMasternodeRanks env vMasternodes nBlockHeight nMinProtocol =
      getMasternodeRanks env vMasternodes' nBlockHeight nMinProtocol ∧
    ∀ r, getMasternodeByRank env vMasternodes r nBlockHeight nMinProtocol fOnlyActive =
      getMasternodeByRank env vMasternodes' r nBlockHeight nMinProtocol fOnlyActive

end Functions

/-! ### The comparison -/

/-- The bytes of a hash, lowest first. -/
def UInt256.memory (a : UInt256) : List (BitVec 8) :=
  (List.range 32).map fun i => a.extractLsb' (8 * i) 8

theorem UInt256.memory_inj {a b : UInt256} (h : a.memory = b.memory) : a = b := by
  have hbyte : ∀ i < 32, a.extractLsb' (8 * i) 8 = b.extractLsb' (8 * i) 8 := by
    intro i hi
    exact List.map_inj_left.mp h i (List.mem_range.mpr hi)
  apply BitVec.eq_of_getLsbD_eq
  intro i hi
  have hbit := congrArg (fun x => x.getLsbD (i % 8)) (hbyte (i / 8) (by omega))
  simp only [BitVec.getLsbD_extractLsb'] at hbit
  have hi' : 8 * (i / 8) + i % 8 = i := Nat.div_add_mod i 8
  rw [hi'] at hbit
  simpa [Nat.mod_lt] using hbit

theorem uint256Lt_eq (a b : UInt256) : uint256Lt a b = decide (a.memory < b.memory) := rfl

theorem uint256Lt_compares : Compares uint256Lt := by
  constructor
  · intro a b hab
    rw [uint256Lt_eq, decide_eq_true_eq] at hab
    exact decide_eq_false (List.lt_asymm hab)
  · intro a b c hba hcb
    rw [uint256Lt_eq, decide_eq_false_iff_not, List.not_lt] at hba hcb ⊢
    exact List.le_trans hba hcb

theorem uint256Lt_apart {a b : UInt256} (hab : uint256Lt a b = false) (hba : uint256Lt b a = false) :
    a = b := by
  rw [uint256Lt_eq, decide_eq_false_iff_not, List.not_lt] at hab hba
  exact UInt256.memory_inj (List.le_antisymm hba hab)

theorem COutPoint.lt_compares : Compares COutPoint.lt :=
  uint256Lt_compares.lex (f := COutPoint.hash) (fun _ _ => uint256Lt_apart) (.ofLT COutPoint.n)

theorem COutPoint.lt_apart {a b : COutPoint} (hab : a.lt b = false) (hba : b.lt a = false) :
    a = b := by
  obtain ⟨hash, n⟩ := a
  obtain ⟨hash', n'⟩ := b
  simp only [COutPoint.lt, Bool.or_eq_false_iff, Bool.and_eq_false_imp, decide_eq_true_eq,
    decide_eq_false_iff_not] at hab hba
  obtain rfl : hash = hash' := uint256Lt_apart hab.1 hba.1
  obtain rfl : n = n' := Nat.le_antisymm (Nat.not_lt.mp (hba.2 rfl)) (Nat.not_lt.mp (hab.2 rfl))
  rfl

/-- A number first, an outpoint where it is the same. -/
def byNumber {α : Type} (number : α → ℤ) (out : α → COutPoint) (a b : α) : Bool :=
  if number a ≠ number b then number a < number b else (out a).lt (out b)

section ByNumber

variable {α : Type} (number : α → ℤ) (out : α → COutPoint)

theorem byNumber_eq (a b : α) : byNumber number out a b =
    (decide (number a < number b) || (decide (number a = number b) && (out a).lt (out b))) := by
  rw [byNumber]
  rcases eq_or_ne (number a) (number b) with heq | hne
  · simp [heq]
  · simp [hne]

theorem byNumber_compares : Compares (byNumber number out) := by
  have hnumber : Compares fun a b : ℤ => decide (a < b) := .ofLT id
  have happart : ∀ x y : ℤ, decide (x < y) = false → decide (y < x) = false → x = y := by
    intro x y hxy hyx
    rw [decide_eq_false_iff_not] at hxy hyx
    omega
  have hlex := hnumber.lex (f := number) happart (COutPoint.lt_compares.comap out)
  have heq : byNumber number out = fun a b => decide (number a < number b) ||
      (decide (number a = number b) && (out a).lt (out b)) := by
    funext a b
    exact byNumber_eq number out a b
  rw [heq]
  exact hlex

theorem out_of_alike {a b : α} (hab : byNumber number out a b = false)
    (hba : byNumber number out b a = false) : out a = out b := by
  simp only [byNumber_eq, Bool.or_eq_false_iff, Bool.and_eq_false_imp, decide_eq_true_eq,
    decide_eq_false_iff_not] at hab hba
  have hnumber : number a = number b := by omega
  exact COutPoint.lt_apart (hab.2 hnumber) (hba.2 hnumber.symm)

end ByNumber

theorem compareScoreMN_compares : Compares compareScoreMN :=
  byNumber_compares Prod.fst fun t : ℤ × CMasternode => t.2.vin.prevout

theorem prevout_of_alike {t1 t2 : ℤ × CMasternode} (h12 : compareScoreMN t1 t2 = false)
    (h21 : compareScoreMN t2 t1 = false) : t1.2.vin.prevout = t2.2.vin.prevout :=
  out_of_alike Prod.fst (fun t : ℤ × CMasternode => t.2.vin.prevout) h12 h21

/-! ### One ranking -/

section OneRanking

variable {env : RankEnv} {vMasternodes vMasternodes' : List CMasternode} {blockHash : UInt256}
  {passes passes' : CMasternode → Bool} {mn : CMasternode} {r n : ℤ}

theorem mem_scores {s : ℤ × CMasternode} :
    s ∈ vecMasternodeScores env vMasternodes blockHash passes ↔
      s.2 ∈ vMasternodes ∧ passes s.2 = true ∧
        s.1 = getCompact (env.calculateScore blockHash s.2.vin.prevout) := by
  obtain ⟨score, mn⟩ := s
  rw [vecMasternodeScores, List.mem_map]
  constructor
  · rintro ⟨mn', hmem, heq⟩
    obtain ⟨rfl, rfl⟩ := Prod.mk.inj heq
    exact ⟨(List.mem_filter.mp hmem).1, (List.mem_filter.mp hmem).2, rfl⟩
  · rintro ⟨hmem, hpass, hscore⟩
    exact ⟨mn, List.mem_filter.mpr ⟨hmem, hpass⟩, congrArg (·, mn) hscore.symm⟩

variable (env vMasternodes blockHash passes) in
/-- The sorted scores. -/
def ranking : List (ℤ × CMasternode) :=
  sortDown compareScoreMN (vecMasternodeScores env vMasternodes blockHash passes)

theorem mem_ranking {s : ℤ × CMasternode} : s ∈ ranking env vMasternodes blockHash passes ↔
    s.2 ∈ vMasternodes ∧ passes s.2 = true ∧
      s.1 = getCompact (env.calculateScore blockHash s.2.vin.prevout) :=
  (sortDown_perm _ _).mem_iff.trans mem_scores

theorem ranking_masternodes : ((ranking env vMasternodes blockHash passes).map Prod.snd).Perm
    (vMasternodes.filter passes) := by
  have hsnd : (vecMasternodeScores env vMasternodes blockHash passes).map Prod.snd =
      vMasternodes.filter passes := by
    rw [vecMasternodeScores, List.map_map]
    exact List.map_id _
  rw [← hsnd]
  exact (sortDown_perm _ _).map Prod.snd

theorem ranking_congr_filter (h : ∀ mn ∈ vMasternodes, passes mn = passes' mn) :
    ranking env vMasternodes blockHash passes = ranking env vMasternodes blockHash passes' := by
  rw [ranking, ranking, vecMasternodeScores, vecMasternodeScores, List.filter_congr h]

variable (hnodup : (vMasternodes.map (·.vin.prevout)).Nodup)
include hnodup

theorem ranking_nodup :
    ((ranking env vMasternodes blockHash passes).map (·.2.vin.prevout)).Nodup := by
  have hfilter : ((vMasternodes.filter passes).map (·.vin.prevout)).Nodup :=
    (List.filter_sublist.map _).nodup hnodup
  have hperm : (((ranking env vMasternodes blockHash passes).map Prod.snd).map
      (·.vin.prevout)).Perm _ := ranking_masternodes.map _
  rw [List.map_map] at hperm
  exact hperm.nodup_iff.mpr hfilter

theorem ranking_perm (hperm : vMasternodes.Perm vMasternodes') :
    ranking env vMasternodes blockHash passes = ranking env vMasternodes' blockHash passes := by
  refine sortDown_congr compareScoreMN_compares ?_ ((hperm.filter _).map _)
  intro a ha b hb hab hba
  rw [mem_scores] at ha hb
  obtain ⟨score, mn⟩ := a
  obtain ⟨score', mn'⟩ := b
  obtain rfl : mn = mn' :=
    List.inj_on_of_nodup_map hnodup ha.1 hb.1 (prevout_of_alike hab hba)
  rw [Prod.mk.injEq]
  exact ⟨ha.2.2.trans hb.2.2.symm, rfl⟩

theorem item_iff_rank (hmem : mn ∈ vMasternodes) (hpass : passes mn = true) :
    (itemFrom r 0 (ranking env vMasternodes blockHash passes)).map Prod.snd = some mn ↔
      rankFrom (fun s => s.2.vin.prevout = mn.vin.prevout) 0
        (ranking env vMasternodes blockHash passes) = r := by
  have hentry : (((getCompact (env.calculateScore blockHash mn.vin.prevout) : ℕ) : ℤ), mn) ∈
      ranking env vMasternodes blockHash passes := mem_ranking.mpr ⟨hmem, hpass, rfl⟩
  rw [← itemFrom_iff_rank (ranking_nodup hnodup) hentry, Option.map_eq_some_iff]
  constructor
  · rintro ⟨⟨score, mn'⟩, hitem, rfl⟩
    have hscore := (mem_ranking.mp (mem_of_itemFrom hitem)).2.2
    rw [hitem]
    exact congrArg (fun x => some (x, mn')) hscore
  · intro hitem
    exact ⟨_, hitem, rfl⟩

omit hnodup in
theorem mem_of_item (h : (itemFrom r 0 (ranking env vMasternodes blockHash passes)).map Prod.snd =
    some mn) : mn ∈ vMasternodes ∧ passes mn = true := by
  obtain ⟨s, hitem, rfl⟩ := Option.map_eq_some_iff.mp h
  have hmem := mem_ranking.mp (mem_of_itemFrom hitem)
  exact ⟨hmem.1, hmem.2.1⟩

theorem rank_of_not_pass (hmem : mn ∈ vMasternodes) (hpass : passes mn = false) :
    rankFrom (fun s => s.2.vin.prevout = mn.vin.prevout) 0
      (ranking env vMasternodes blockHash passes) = -1 := by
  refine rankFrom_of_forall_false fun s hs => ?_
  obtain ⟨hs, hspass, -⟩ := mem_ranking.mp hs
  rw [decide_eq_false_iff_not]
  intro heq
  rw [List.inj_on_of_nodup_map hnodup hs hmem heq, hpass] at hspass
  exact Bool.false_ne_true hspass

theorem ranks_perm : ((vMasternodes.filter passes).map fun mn =>
      rankFrom (fun s => s.2.vin.prevout = mn.vin.prevout) 0
        (ranking env vMasternodes blockHash passes)).Perm
    ((List.range (vMasternodes.filter passes).length).map fun i : ℕ => (i : ℤ) + 1) := by
  have hkeys : ((ranking env vMasternodes blockHash passes).map (·.2.vin.prevout)).Nodup :=
    ranking_nodup hnodup
  have hmap := map_rankFrom (n := 0) hkeys
  have hperm : ((ranking env vMasternodes blockHash passes).map Prod.snd).Perm _ :=
    ranking_masternodes
  have hlength := hperm.length_eq
  rw [List.length_map] at hlength
  refine (hperm.map _).symm.trans ?_
  rw [List.map_map, ← hlength]
  refine List.Perm.of_eq (hmap.trans (List.map_congr_left fun i _ => ?_))
  omega

omit hnodup

theorem mem_ranksLoop : ∀ {l : List (ℤ × CMasternode)} {n : ℤ},
    (r, mn) ∈ ranksLoop n l ↔ (itemFrom r n l).map Prod.snd = some mn
  | [], _ => by simp [ranksLoop, itemFrom]
  | s :: l, n => by
    rw [ranksLoop, itemFrom, List.mem_cons, mem_ranksLoop, Prod.mk.injEq]
    by_cases hr : n + 1 = r
    · have hbefore : itemFrom r (n + 1) l = none := itemFrom_eq_none hr.ge
      rw [if_pos hr, hbefore]
      simp [hr, eq_comm]
    · rw [if_neg hr]
      simp [Ne.symm hr]

end OneRanking

/-! ### The agreement -/

section Agreement

variable {env : RankEnv} {vMasternodes : List CMasternode} {blockHash : UInt256} {mn : CMasternode}
  {nBlockHeight nMinProtocol r : ℤ} {fOnlyActive : Bool}

theorem getMasternodeRank_eq (hknown : env.getBlockHash nBlockHeight = some blockHash)
    (vin : CTxIn) : getMasternodeRank env vMasternodes vin nBlockHeight nMinProtocol fOnlyActive =
      rankFrom (fun s => s.2.vin.prevout = vin.prevout) 0
        (ranking env vMasternodes blockHash (ranked env nMinProtocol fOnlyActive)) := by
  rw [getMasternodeRank, hknown]
  rfl

theorem getMasternodeByRank_eq (hknown : env.getBlockHash nBlockHeight = some blockHash) (r : ℤ) :
    getMasternodeByRank env vMasternodes r nBlockHeight nMinProtocol fOnlyActive =
      (itemFrom r 0 (ranking env vMasternodes blockHash
        (rankedBy nMinProtocol fOnlyActive))).map Prod.snd := by
  rw [getMasternodeByRank, hknown]
  rfl

theorem getMasternodeRanks_eq (hknown : env.getBlockHash nBlockHeight = some blockHash) :
    getMasternodeRanks env vMasternodes nBlockHeight nMinProtocol =
      ranksLoop 0 (ranking env vMasternodes blockHash (ranked env nMinProtocol true)) := by
  have hfilter : ranked env nMinProtocol true = fun mn =>
      !(decide (mn.nProtocolVersion < nMinProtocol) || !mn.isEnabled) := by
    funext mn
    rw [ranked]
    by_cases hproto : mn.nProtocolVersion < nMinProtocol
    · simp [hproto]
    · simp [hproto]
  rw [getMasternodeRanks, hknown, hfilter]
  rfl

theorem filters_agree_iff :
    (∀ mn ∈ vMasternodes, rankedBy nMinProtocol fOnlyActive mn =
      ranked env nMinProtocol fOnlyActive mn) ↔
    fOnlyActive = true ∨ ∀ mn ∈ vMasternodes, nMinProtocol ≤ mn.nProtocolVersion →
      mn.isValidForPayment env.spork14 = true := by
  cases fOnlyActive with
  | true =>
    refine ⟨fun _ => .inl rfl, fun _ mn _ => ?_⟩
    cases he : mn.isEnabled <;> simp [rankedBy, ranked, he]
  | false =>
    rw [or_iff_right Bool.false_ne_true]
    refine forall₂_congr fun mn _ => ?_
    by_cases hproto : mn.nProtocolVersion < nMinProtocol
    · simp [rankedBy, ranked, hproto]
    · have hpass : rankedBy nMinProtocol false mn = true := by simp [rankedBy, hproto]
      have hvalid : ranked env nMinProtocol false mn = mn.isValidForPayment env.spork14 := by
        simp [ranked, hproto]
      rw [hpass, hvalid]
      exact ⟨fun h _ => h.symm, fun h => (h (Int.not_lt.mp hproto)).symm⟩

theorem rankedBy_of_ranked (h : ranked env nMinProtocol fOnlyActive mn = true) :
    rankedBy nMinProtocol fOnlyActive mn = true := by
  by_cases hproto : mn.nProtocolVersion < nMinProtocol
  · simp [ranked, hproto] at h
  · rw [ranked, if_neg hproto] at h
    rw [rankedBy, if_neg hproto]
    cases fOnlyActive with
    | false => rfl
    | true => simpa using h

/-- **When the ranks agree**: for enabled masternodes always, otherwise where all masternodes
of the protocol are valid for payment. -/
theorem ranks_agree_iff (env : RankEnv) {vMasternodes : List CMasternode}
    (hnodup : (vMasternodes.map (·.vin.prevout)).Nodup) {nBlockHeight : ℤ} {blockHash : UInt256}
    (hknown : env.getBlockHash nBlockHeight = some blockHash) (nMinProtocol : ℤ)
    (fOnlyActive : Bool) :
    RanksAgree env vMasternodes nBlockHeight nMinProtocol fOnlyActive ↔
      fOnlyActive = true ∨ ∀ mn ∈ vMasternodes, nMinProtocol ≤ mn.nProtocolVersion →
        mn.isValidForPayment env.spork14 = true := by
  rw [← filters_agree_iff]
  constructor
  · intro h mn hmem
    rw [Bool.eq_iff_iff]
    refine ⟨fun hpass => ?_, rankedBy_of_ranked⟩
    -- a masternode that only one filter passes has a rank with one function only
    by_contra hranked
    rw [Bool.not_eq_true] at hranked
    have hentry : (((getCompact (env.calculateScore blockHash mn.vin.prevout) : ℕ) : ℤ), mn) ∈
        ranking env vMasternodes blockHash (rankedBy nMinProtocol fOnlyActive) :=
      mem_ranking.mpr ⟨hmem, hpass, rfl⟩
    have hpos := lt_rankFrom (p := fun s => s.2.vin.prevout = mn.vin.prevout) (n := 0)
      ⟨_, hentry, decide_eq_true rfl⟩
    have hby := (h.byRank _ mn (by omega) hmem).mp
      ((getMasternodeByRank_eq hknown _).trans ((item_iff_rank hnodup hmem hpass).mpr rfl))
    rw [getMasternodeRank_eq hknown, rank_of_not_pass hnodup hmem hranked] at hby
    omega
  · intro hfilters
    have hby : ∀ r, getMasternodeByRank env vMasternodes r nBlockHeight nMinProtocol fOnlyActive =
        (itemFrom r 0 (ranking env vMasternodes blockHash
          (ranked env nMinProtocol fOnlyActive))).map Prod.snd := by
      intro r
      rw [getMasternodeByRank_eq hknown, ranking_congr_filter hfilters]
    have hone : ∀ f r mn, r ≠ -1 → mn ∈ vMasternodes →
        ((itemFrom r 0 (ranking env vMasternodes blockHash (ranked env nMinProtocol f))).map
          Prod.snd = some mn ↔
        getMasternodeRank env vMasternodes mn.vin nBlockHeight nMinProtocol f = r) := by
      intro f r mn hr hmem
      rw [getMasternodeRank_eq hknown]
      cases hpass : ranked env nMinProtocol f mn with
      | true => exact item_iff_rank hnodup hmem hpass
      | false =>
        rw [rank_of_not_pass hnodup hmem hpass]
        refine iff_of_false (fun hitem => ?_) hr.symm
        rw [(mem_of_item hitem).2] at hpass
        exact absurd hpass (by decide)
    refine ⟨fun r mn hr hmem => ?_, fun r mn hitem => ?_, fun _ r mn => ?_, ?_, fun _ hperm => ?_⟩
    · rw [hby]
      exact hone fOnlyActive r mn hr hmem
    · rw [hby] at hitem
      exact (mem_of_item hitem).1
    · rw [getMasternodeRanks_eq hknown, mem_ranksLoop]
      constructor
      · intro hitem
        have hmem := (mem_of_item hitem).1
        have hr : r ≠ -1 := by
          rintro rfl
          rw [itemFrom_eq_none (by omega)] at hitem
          exact absurd hitem (by simp)
        exact ⟨hmem, hr, (hone true r mn hr hmem).mp hitem⟩
      · rintro ⟨hmem, hr, hrank⟩
        exact (hone true r mn hr hmem).mpr hrank
    · simp only [getMasternodeRank_eq hknown]
      exact ranks_perm hnodup
    · refine ⟨fun vin => ?_, ?_, fun r => ?_⟩
      · rw [getMasternodeRank_eq hknown, getMasternodeRank_eq hknown, ranking_perm hnodup hperm]
      · rw [getMasternodeRanks_eq hknown, getMasternodeRanks_eq hknown, ranking_perm hnodup hperm]
      · rw [getMasternodeByRank_eq hknown, getMasternodeByRank_eq hknown,
          ranking_perm hnodup hperm]

end Agreement

def masternodeAt (hash : UInt256) (nActiveState : MasternodeState) : CMasternode :=
  ⟨⟨⟨hash, 0⟩, [], 0⟩, ⟨[], 0⟩, [], [], CMasternodePing.empty, [], 0, 0, nActiveState, 70211, 0, 0⟩

/-- Two blocks are known, and all scores are one. -/
def rankEnv : RankEnv where
  getBlockHash := fun nBlockHeight => if 0 ≤ nBlockHeight ∧ nBlockHeight < 2 then some 7 else none
  calculateScore := fun _ _ => 1
  spork14 := true

def enabledAndStopped : List CMasternode :=
  [masternodeAt 1 .MASTERNODE_ENABLED, masternodeAt 2 .MASTERNODE_NEW_START_REQUIRED]

theorem ranks_agree_iff_two :
    (enabledAndStopped.map (·.vin.prevout)).Nodup ∧ rankEnv.getBlockHash 1 = some 7 ∧
      (RanksAgree rankEnv enabledAndStopped 1 70206 true ↔ true = true ∨
        ∀ mn ∈ enabledAndStopped, 70206 ≤ mn.nProtocolVersion →
          mn.isValidForPayment rankEnv.spork14 = true) :=
  ⟨by decide, by decide, ranks_agree_iff rankEnv (by decide)
    (show rankEnv.getBlockHash 1 = some 7 by decide) 70206 true⟩

theorem stopped_has_rank_one :
    (enabledAndStopped.map (·.vin.prevout)).Nodup ∧ rankEnv.getBlockHash 1 = some 7 ∧
      getMasternodeByRank rankEnv enabledAndStopped 1 1 70206 false =
        some (masternodeAt 2 .MASTERNODE_NEW_START_REQUIRED) ∧
      getMasternodeRank rankEnv enabledAndStopped
        (masternodeAt 2 .MASTERNODE_NEW_START_REQUIRED).vin 1 70206 false = -1 ∧
      ¬ RanksAgree rankEnv enabledAndStopped 1 70206 false := by
  have hby : getMasternodeByRank rankEnv enabledAndStopped 1 1 70206 false =
      some (masternodeAt 2 .MASTERNODE_NEW_START_REQUIRED) := by decide +kernel
  have hrank : getMasternodeRank rankEnv enabledAndStopped
      (masternodeAt 2 .MASTERNODE_NEW_START_REQUIRED).vin 1 70206 false = -1 := by decide +kernel
  refine ⟨by decide, by decide, hby, hrank, fun h => ?_⟩
  have hone := (h.byRank 1 _ (by decide) (by decide)).mp hby
  rw [hrank] at hone
  exact absurd hone (by decide)

end Stonecoin
