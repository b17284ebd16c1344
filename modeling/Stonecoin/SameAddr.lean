/-
`CheckSameAddr`: masternodes that share the address of a verified one (`masternodeman.cpp`).

`std::sort` may leave masternodes with one address in any order, so the sorted list is a
parameter.  A pointer to a masternode is the masternode with its place.

  * `checkSameAddr_fair`: who is banned, for every order.
-/
import Stonecoin.VerificationScores

namespace Stonecoin

open Ranking

def CService.lt (a b : CService) : Bool :=
  decide (a.ip < b.ip) || (a.ip = b.ip && decide (a.port < b.port))

def CMasternode.isPreEnabled (mn : CMasternode) : Bool :=
  mn.nActiveState = .MASTERNODE_PRE_ENABLED

def compareByAddr (t1 t2 : CMasternode × ℕ) : Bool := t1.1.addr.lt t2.1.addr

structure AddrScan where
  pprevMasternode : Option (CMasternode × ℕ)
  pverifiedMasternode : Option (CMasternode × ℕ)
  vBan : List (CMasternode × ℕ)

namespace AddrScan

def start : AddrScan := ⟨none, none, []⟩

/-- The masternode that is verified so far, when an address is seen for the first time. -/
def verified (pmn : CMasternode × ℕ) : Option (CMasternode × ℕ) :=
  if pmn.1.isPoSeVerified then some pmn else none

/-- The loop over `vSortedByAddr`. -/
def step (s : AddrScan) (pmn : CMasternode × ℕ) : AddrScan :=
  if !pmn.1.isEnabled && !pmn.1.isPreEnabled then s
  else
    match s.pprevMasternode with
    | none => ⟨some pmn, verified pmn, s.vBan⟩
    | some pprev =>
      if pmn.1.addr = pprev.1.addr then
        if s.pverifiedMasternode.isSome then
          ⟨some pmn, s.pverifiedMasternode, s.vBan ++ [pmn]⟩
        else if pmn.1.isPoSeVerified then ⟨some pmn, some pmn, s.vBan ++ [pprev]⟩
        else ⟨some pmn, none, s.vBan⟩
      else ⟨some pmn, verified pmn, s.vBan⟩

end AddrScan

def checkSameAddr (env : ManEnv) (vSortedByAddr : List (CMasternode × ℕ))
    (vMasternodes : List CMasternode) : List CMasternode :=
  if !env.isSynced || vMasternodes.isEmpty then vMasternodes
  else
    (vSortedByAddr.foldl AddrScan.step .start).vBan.foldl
      (fun mns pmn => mns.modify pmn.2 CMasternode.increasePoSeBanScore) vMasternodes

/-- What `std::sort` may make of the pointers to the masternodes. -/
def SortedByAddr (vMasternodes : List CMasternode) (vSortedByAddr : List (CMasternode × ℕ)) :
    Prop :=
  vSortedByAddr.Perm vMasternodes.zipIdx ∧
    vSortedByAddr.Pairwise fun t1 t2 => compareByAddr t2 t1 = false

/-! ### What is fair -/

def CMasternode.isChecked (mn : CMasternode) : Bool := mn.isEnabled || mn.isPreEnabled

/-- Two places of a list have checked masternodes with one address. -/
def SameAddr (mns : List CMasternode) (i j : ℕ) : Prop :=
  ∃ mn w, mns[i]? = some mn ∧ mns[j]? = some w ∧ mn.isChecked = true ∧ w.isChecked = true ∧
    mn.addr = w.addr

def VerifiedAt (mns : List CMasternode) (i : ℕ) : Prop :=
  ∃ mn, mns[i]? = some mn ∧ mn.isPoSeVerified = true

/-- **Same-address banning is fair**, where a ban has to be seen in the score in some way. -/
structure SameAddrFair (raised : CMasternode → CMasternode → Prop)
    (mns mns' : List CMasternode) : Prop where
  length : mns'.length = mns.length
  /-- A score is increased at most once, and for a reason. -/
  once : ∀ i mn mn', mns[i]? = some mn → mns'[i]? = some mn' → mn' ≠ mn →
    mn' = mn.increasePoSeBanScore ∧ ∃ j, j ≠ i ∧ SameAddr mns i j ∧ VerifiedAt mns j
  /-- Where one member of a group is verified, it stays as it is, and others do not. -/
  lone : ∀ i, VerifiedAt mns i → (∀ j, SameAddr mns i j → VerifiedAt mns j → j = i) →
    mns'[i]? = mns[i]? ∧ ∀ j, SameAddr mns i j → j ≠ i →
      ∃ k mn mn', SameAddr mns i k ∧ k ≠ i ∧ mns[k]? = some mn ∧ mns'[k]? = some mn' ∧
        raised mn mn'

/-! ### Addresses -/

theorem CService.lt_compares : Compares CService.lt := by
  have hip : Compares fun a b : List UInt8 => decide (a < b) := by
    constructor
    · intro a b hab
      exact decide_eq_false (List.lt_asymm (of_decide_eq_true hab))
    · intro a b c hba hcb
      rw [decide_eq_false_iff_not, List.not_lt] at hba hcb ⊢
      exact List.le_trans hba hcb
  have hapart : ∀ x y : List UInt8, decide (x < y) = false → decide (y < x) = false → x = y := by
    intro x y hxy hyx
    rw [decide_eq_false_iff_not, List.not_lt] at hxy hyx
    exact List.le_antisymm hyx hxy
  exact Compares.lex (f := CService.ip) hip hapart (.ofLT CService.port)

theorem CService.lt_apart {a b : CService} (hab : a.lt b = false) (hba : b.lt a = false) :
    a = b := by
  simp only [CService.lt, Bool.or_eq_false_iff, Bool.and_eq_false_imp, decide_eq_false_iff_not,
    decide_eq_true_eq, List.not_lt, not_lt] at hab hba
  have hip : a.ip = b.ip := List.le_antisymm hba.1 hab.1
  have hport : a.port = b.port := le_antisymm (hba.2 hip.symm) (hab.2 hip)
  obtain ⟨ip, port⟩ := a
  obtain ⟨ip', port'⟩ := b
  obtain rfl : ip = ip' := hip
  obtain rfl : port = port' := hport
  rfl

/-! ### The scan -/

namespace AddrScan

/-- What is known when the checked masternodes `P` have been passed. -/
structure Inv (P : List (CMasternode × ℕ)) (s : AddrScan) : Prop where
  none_passed : s.pprevMasternode = none → P = []
  last : ∀ q, s.pprevMasternode = some q → q ∈ P ∧ ∀ x ∈ P, compareByAddr q x = false
  verified : ∀ q, s.pprevMasternode = some q → (s.pverifiedMasternode.isSome = true ↔
    ∃ w ∈ P, w.1.addr = q.1.addr ∧ w.1.isPoSeVerified = true)
  fresh : ∀ q, s.pprevMasternode = some q → s.pverifiedMasternode.isSome = false → q ∉ s.vBan
  nodup : s.vBan.Nodup
  reason : ∀ b ∈ s.vBan, b ∈ P ∧ ∃ w ∈ P, w ≠ b ∧ w.1.addr = b.1.addr ∧
    w.1.isPoSeVerified = true
  bans : ∀ w ∈ P, w.1.isPoSeVerified = true → ∀ x ∈ P, x ≠ w → x.1.addr = w.1.addr →
    ∃ b ∈ s.vBan, b.1.addr = w.1.addr

theorem inv_start : start.Inv [] where
  none_passed _ := rfl
  last _ h := absurd h (by simp [start])
  verified _ h := absurd h (by simp [start])
  fresh _ h := absurd h (by simp [start])
  nodup := List.nodup_nil
  reason _ h := absurd h List.not_mem_nil
  bans _ h := absurd h List.not_mem_nil

variable {P : List (CMasternode × ℕ)} {s : AddrScan} {pmn q : CMasternode × ℕ}

theorem Inv.reason_append (h : s.Inv P) {b : CMasternode × ℕ} (hb : b ∈ s.vBan) :
    b ∈ P ++ [pmn] ∧ ∃ w ∈ P ++ [pmn], w ≠ b ∧ w.1.addr = b.1.addr ∧
      w.1.isPoSeVerified = true := by
  obtain ⟨hP, w, hw, hrest⟩ := h.reason b hb
  exact ⟨List.mem_append_left _ hP, w, List.mem_append_left _ hw, hrest⟩

theorem last_append (hsorted : ∀ x ∈ P, compareByAddr pmn x = false) {q : CMasternode × ℕ}
    (hq : some pmn = some q) : q ∈ P ++ [pmn] ∧ ∀ x ∈ P ++ [pmn], compareByAddr q x = false := by
  obtain rfl := Option.some.inj hq
  refine ⟨by simp, fun x hx => ?_⟩
  rcases List.mem_append.mp hx with hx | hx
  · exact hsorted x hx
  · obtain rfl := List.mem_singleton.mp hx
    cases hself : compareByAddr x x with
    | false => rfl
    | true => exact hself ▸ CService.lt_compares.asymm _ _ hself

theorem Inv.first (h : s.Inv P) (hfirst : ∀ x ∈ P, x.1.addr ≠ pmn.1.addr) (hnew : pmn ∉ P)
    (hsorted : ∀ x ∈ P, compareByAddr pmn x = false) :
    Inv (P ++ [pmn]) ⟨some pmn, AddrScan.verified pmn, s.vBan⟩ where
  none_passed h := absurd h (by simp)
  last _ hq := last_append hsorted hq
  verified q hq := by
    obtain rfl := Option.some.inj hq
    have hself : (AddrScan.verified pmn).isSome = true ↔ pmn.1.isPoSeVerified = true := by
      rw [AddrScan.verified]
      split_ifs with hverified <;> simp [hverified]
    show (AddrScan.verified pmn).isSome = true ↔ _
    rw [hself]
    constructor
    · exact fun hverified => ⟨pmn, by simp, rfl, hverified⟩
    · rintro ⟨w, hw, haddr, hverified⟩
      rcases List.mem_append.mp hw with hw | hw
      · exact absurd haddr (hfirst w hw)
      · obtain rfl := List.mem_singleton.mp hw
        exact hverified
  fresh q hq _ := by
    obtain rfl := Option.some.inj hq
    exact fun hban => hnew (h.reason pmn hban).1
  nodup := h.nodup
  reason b hb := h.reason_append hb
  bans w hw hverified x hx hne haddr := by
    rcases List.mem_append.mp hw with hwP | hw
    · rcases List.mem_append.mp hx with hx | hx
      · exact h.bans w hwP hverified x hx hne haddr
      · obtain rfl := List.mem_singleton.mp hx
        exact absurd haddr.symm (hfirst w hwP)
    · obtain rfl := List.mem_singleton.mp hw
      rcases List.mem_append.mp hx with hx | hx
      · exact absurd haddr (hfirst x hx)
      · exact absurd (List.mem_singleton.mp hx) hne

theorem Inv.bans_append (h : s.Inv P) {r : CMasternode × ℕ} (hr : r.1.addr = pmn.1.addr) :
    ∀ w ∈ P ++ [pmn], w.1.isPoSeVerified = true → ∀ x ∈ P ++ [pmn], x ≠ w →
      x.1.addr = w.1.addr → ∃ b ∈ s.vBan ++ [r], b.1.addr = w.1.addr := by
  intro w hw hwverified x hx hne hxaddr
  rcases List.mem_append.mp hw with hw | hw
  · rcases List.mem_append.mp hx with hx | hx
    · obtain ⟨b, hb, hbaddr⟩ := h.bans w hw hwverified x hx hne hxaddr
      exact ⟨b, List.mem_append_left _ hb, hbaddr⟩
    · obtain rfl := List.mem_singleton.mp hx
      exact ⟨r, by simp, hr.trans hxaddr⟩
  · obtain rfl := List.mem_singleton.mp hw
    exact ⟨r, by simp, hr⟩

theorem Inv.ban_this (h : s.Inv P) (hprev : s.pprevMasternode = some q)
    (haddr : pmn.1.addr = q.1.addr) (hverified : s.pverifiedMasternode.isSome = true)
    (hnew : pmn ∉ P) (hsorted : ∀ x ∈ P, compareByAddr pmn x = false) :
    Inv (P ++ [pmn]) ⟨some pmn, s.pverifiedMasternode, s.vBan ++ [pmn]⟩ where
  none_passed h := absurd h (by simp)
  last _ hq := last_append hsorted hq
  verified q' hq' := by
    obtain rfl := Option.some.inj hq'
    obtain ⟨w, hw, hwaddr, hwverified⟩ := (h.verified q hprev).mp hverified
    exact iff_of_true hverified
      ⟨w, List.mem_append_left _ hw, hwaddr.trans haddr.symm, hwverified⟩
  fresh _ _ hnone := absurd (hverified.symm.trans hnone) (by decide)
  nodup := by
    refine List.nodup_append.mpr ⟨h.nodup, List.nodup_singleton _, ?_⟩
    rintro b hb c hc rfl
    obtain rfl := List.mem_singleton.mp hc
    exact hnew (h.reason b hb).1
  reason b hb := by
    rcases List.mem_append.mp hb with hb | hb
    · exact h.reason_append hb
    · obtain rfl := List.mem_singleton.mp hb
      obtain ⟨w, hw, hwaddr, hwverified⟩ := (h.verified q hprev).mp hverified
      refine ⟨by simp, w, List.mem_append_left _ hw, ?_, hwaddr.trans haddr.symm, hwverified⟩
      rintro rfl
      exact hnew hw
  bans := h.bans_append rfl

theorem Inv.ban_previous (h : s.Inv P) (hprev : s.pprevMasternode = some q)
    (haddr : pmn.1.addr = q.1.addr) (hnone : s.pverifiedMasternode.isSome = false)
    (hverified : pmn.1.isPoSeVerified = true) (hnew : pmn ∉ P)
    (hsorted : ∀ x ∈ P, compareByAddr pmn x = false) :
    Inv (P ++ [pmn]) ⟨some pmn, some pmn, s.vBan ++ [q]⟩ where
  none_passed h := absurd h (by simp)
  last _ hq := last_append hsorted hq
  verified q' hq' := by
    obtain rfl := Option.some.inj hq'
    exact iff_of_true rfl ⟨pmn, by simp, rfl, hverified⟩
  fresh _ _ hfalse := absurd hfalse (by simp)
  nodup := by
    refine List.nodup_append.mpr ⟨h.nodup, List.nodup_singleton _, ?_⟩
    rintro b hb c hc rfl
    obtain rfl := List.mem_singleton.mp hc
    exact h.fresh b hprev hnone hb
  reason b hb := by
    rcases List.mem_append.mp hb with hb | hb
    · exact h.reason_append hb
    · obtain rfl := List.mem_singleton.mp hb
      have hP := (h.last b hprev).1
      refine ⟨List.mem_append_left _ hP, pmn, by simp, ?_, haddr, hverified⟩
      rintro rfl
      exact hnew hP
  bans := h.bans_append haddr.symm

theorem Inv.ban_nobody (h : s.Inv P) (hprev : s.pprevMasternode = some q)
    (haddr : pmn.1.addr = q.1.addr) (hnone : s.pverifiedMasternode.isSome = false)
    (hverified : pmn.1.isPoSeVerified = false) (hnew : pmn ∉ P)
    (hsorted : ∀ x ∈ P, compareByAddr pmn x = false) :
    Inv (P ++ [pmn]) ⟨some pmn, none, s.vBan⟩ where
  none_passed h := absurd h (by simp)
  last _ hq := last_append hsorted hq
  verified q' hq' := by
    obtain rfl := Option.some.inj hq'
    refine iff_of_false (by simp) ?_
    rintro ⟨w, hw, hwaddr, hwverified⟩
    rcases List.mem_append.mp hw with hw | hw
    · have hsome := (h.verified q hprev).mpr ⟨w, hw, hwaddr.trans haddr, hwverified⟩
      exact absurd (hsome.symm.trans hnone) (by decide)
    · obtain rfl := List.mem_singleton.mp hw
      exact absurd (hwverified.symm.trans hverified) (by decide)
  fresh q' hq' _ := by
    obtain rfl := Option.some.inj hq'
    exact fun hban => hnew (h.reason pmn hban).1
  nodup := h.nodup
  reason b hb := h.reason_append hb
  bans w hw hwverified x hx hne hxaddr := by
    have hnobody : ∀ y ∈ P, y.1.addr = pmn.1.addr → y.1.isPoSeVerified = false := by
      intro y hy hyaddr
      rw [← Bool.not_eq_true]
      intro hyverified
      have hsome := (h.verified q hprev).mpr ⟨y, hy, hyaddr.trans haddr, hyverified⟩
      exact absurd (hsome.symm.trans hnone) (by decide)
    rcases List.mem_append.mp hw with hwP | hw
    · rcases List.mem_append.mp hx with hx | hx
      · exact h.bans w hwP hwverified x hx hne hxaddr
      · obtain rfl := List.mem_singleton.mp hx
        exact absurd (hwverified.symm.trans (hnobody w hwP hxaddr.symm)) (by decide)
    · obtain rfl := List.mem_singleton.mp hw
      exact absurd (hwverified.symm.trans hverified) (by decide)

theorem Inv.step (h : s.Inv P) (hchecked : pmn.1.isChecked = true) (hnew : pmn ∉ P)
    (hsorted : ∀ x ∈ P, compareByAddr pmn x = false) : (s.step pmn).Inv (P ++ [pmn]) := by
  have hpass : ¬ (!pmn.1.isEnabled && !pmn.1.isPreEnabled) = true := by
    rw [← Bool.not_or, Bool.not_eq_true', Bool.not_eq_false]
    exact hchecked
  rw [AddrScan.step, if_neg hpass]
  cases hprev : s.pprevMasternode with
  | none =>
    refine h.first ?_ hnew hsorted
    rw [h.none_passed hprev]
    exact fun x hx => absurd hx List.not_mem_nil
  | some q =>
    obtain ⟨hq, hmax⟩ := h.last q hprev
    dsimp only
    by_cases haddr : pmn.1.addr = q.1.addr
    · rw [if_pos haddr]
      cases hverified : s.pverifiedMasternode.isSome with
      | true => exact h.ban_this hprev haddr hverified hnew hsorted
      | false =>
        rw [if_neg Bool.false_ne_true]
        cases hthis : pmn.1.isPoSeVerified with
        | true => exact h.ban_previous hprev haddr hverified hthis hnew hsorted
        | false => exact h.ban_nobody hprev haddr hverified hthis hnew hsorted
    · rw [if_neg haddr]
      refine h.first (fun x hx heq => haddr ?_) hnew hsorted
      -- the last one lies between two masternodes with one address
      apply CService.lt_apart (hsorted q hq)
      show q.1.addr.lt pmn.1.addr = false
      rw [← heq]
      exact hmax x hx

theorem step_of_not_checked (h : pmn.1.isChecked = false) : s.step pmn = s := by
  rw [CMasternode.isChecked, Bool.or_eq_false_iff] at h
  rw [AddrScan.step, h.1, h.2]
  rfl

theorem Inv.foldl : ∀ {l P : List (CMasternode × ℕ)} {s : AddrScan}, s.Inv P →
    (P ++ l).Nodup → (P ++ l).Pairwise (fun t1 t2 => compareByAddr t2 t1 = false) →
      (l.foldl AddrScan.step s).Inv (P ++ l.filter fun pmn => pmn.1.isChecked) := by
  intro l
  induction l with
  | nil => exact fun h _ _ => by simpa using h
  | cons pmn l ih =>
    intro P s h hnodup hsorted
    rw [List.foldl_cons]
    cases hchecked : pmn.1.isChecked with
    | false =>
      rw [step_of_not_checked hchecked, List.filter_cons_of_neg (by simp [hchecked])]
      have hsub : (P ++ l).Sublist (P ++ pmn :: l) :=
        List.Sublist.append_left (List.sublist_cons_self pmn l) P
      exact ih h (hnodup.sublist hsub) (hsorted.sublist hsub)
    | true =>
      rw [List.append_cons] at hnodup hsorted
      rw [List.filter_cons_of_pos (by simp [hchecked]), List.append_cons]
      refine ih (h.step hchecked ?_ ?_) hnodup hsorted
      · intro hmem
        exact (List.nodup_append.mp (List.nodup_append.mp hnodup).1).2.2 pmn hmem pmn (by simp) rfl
      · intro x hx
        exact (List.pairwise_append.mp (List.pairwise_append.mp hsorted).1).2.2 x hx pmn (by simp)

end AddrScan

/-! ### The bans -/

theorem getElem?_foldl_increase : ∀ {ban : List (CMasternode × ℕ)} {mns : List CMasternode},
    (ban.map Prod.snd).Nodup → ∀ i : ℕ,
      (ban.foldl (fun mns pmn => mns.modify pmn.2 CMasternode.increasePoSeBanScore) mns)[i]? =
        if i ∈ ban.map Prod.snd then (mns[i]?).map CMasternode.increasePoSeBanScore
        else mns[i]? := by
  intro ban
  induction ban with
  | nil => exact fun _ i => rfl
  | cons b ban ih =>
    intro mns hnodup i
    rw [List.map_cons, List.nodup_cons] at hnodup
    rw [List.foldl_cons, ih hnodup.2, List.getElem?_modify]
    by_cases hi : b.2 = i
    · subst hi
      rw [if_neg hnodup.1, if_pos (by simp)]
      simp
    · have hmem : i ∈ (b :: ban).map Prod.snd ↔ i ∈ ban.map Prod.snd := by
        simp [Ne.symm hi]
      rw [if_congr hmem rfl rfl]
      simp [hi]

theorem length_foldl_increase : ∀ (ban : List (CMasternode × ℕ)) (mns : List CMasternode),
    (ban.foldl (fun mns pmn => mns.modify pmn.2 CMasternode.increasePoSeBanScore) mns).length =
      mns.length
  | [], _ => rfl
  | b :: ban, mns => by
    rw [List.foldl_cons, length_foldl_increase ban, List.length_modify]

variable {env : ManEnv} {mns : List CMasternode} {vSortedByAddr : List (CMasternode × ℕ)}

theorem inv_of_sorted (hsorted : SortedByAddr mns vSortedByAddr) :
    (vSortedByAddr.foldl AddrScan.step .start).Inv
      (vSortedByAddr.filter fun pmn => pmn.1.isChecked) := by
  have hnodup : vSortedByAddr.Nodup :=
    hsorted.1.nodup_iff.mpr (List.Nodup.of_map _ (List.nodup_zipIdx_map_snd mns))
  exact AddrScan.inv_start.foldl (P := []) hnodup hsorted.2

theorem mem_checked_iff (hsorted : SortedByAddr mns vSortedByAddr) {x : CMasternode × ℕ} :
    x ∈ vSortedByAddr.filter (fun pmn => pmn.1.isChecked) ↔
      mns[x.2]? = some x.1 ∧ x.1.isChecked = true := by
  rw [List.mem_filter, hsorted.1.mem_iff, List.mem_zipIdx_iff_getElem?]

theorem getElem?_checkSameAddr (hsynced : env.isSynced = true)
    (hsorted : SortedByAddr mns vSortedByAddr) (i : ℕ) :
    (checkSameAddr env vSortedByAddr mns)[i]? =
      if i ∈ (vSortedByAddr.foldl AddrScan.step .start).vBan.map Prod.snd then
        (mns[i]?).map CMasternode.increasePoSeBanScore
      else mns[i]? := by
  rw [checkSameAddr, hsynced, Bool.not_true, Bool.false_or]
  cases mns with
  | nil => simp
  | cons mn mns =>
    have hinv := inv_of_sorted hsorted
    apply getElem?_foldl_increase
    refine hinv.nodup.map_on fun a ha b hb heq => ?_
    have ha' := ((mem_checked_iff hsorted).mp (hinv.reason a ha).1).1
    have hb' := ((mem_checked_iff hsorted).mp (hinv.reason b hb).1).1
    rw [heq] at ha'
    exact Prod.ext (Option.some.inj (ha'.symm.trans hb')) heq

/-- **Same-address banning is fair**, where a ban raises the score if it is not the highest. -/
theorem checkSameAddr_fair (hsynced : env.isSynced = true)
    (hsorted : SortedByAddr mns vSortedByAddr) :
    SameAddrFair (fun mn mn' => mn' = mn.increasePoSeBanScore) mns
      (checkSameAddr env vSortedByAddr mns) := by
  have hinv := inv_of_sorted hsorted
  have hget := getElem?_checkSameAddr hsynced hsorted
  constructor
  · -- length
    rw [checkSameAddr]
    split_ifs
    · rfl
    · exact length_foldl_increase _ _
  · -- once
    intro i mn mn' hmn hmn' hne
    rw [hget, hmn] at hmn'
    split_ifs at hmn' with hban
    · obtain rfl := Option.some.inj hmn'
      obtain ⟨b, hb, rfl⟩ := List.mem_map.mp hban
      obtain ⟨hP, w, hw, hwne, haddr, hverified⟩ := hinv.reason b hb
      obtain ⟨hb', hchecked⟩ := (mem_checked_iff hsorted).mp hP
      obtain ⟨hw', hwchecked⟩ := (mem_checked_iff hsorted).mp hw
      refine ⟨rfl, w.2, ?_, ⟨b.1, w.1, hb', hw', hchecked, hwchecked, haddr.symm⟩, w.1, hw',
        hverified⟩
      intro heq
      rw [heq] at hw'
      exact hwne (Prod.ext (Option.some.inj (hw'.symm.trans hb')) heq)
    · exact absurd (Option.some.inj hmn').symm hne
  · -- lone
    intro i hverified hlone
    constructor
    · rw [hget]
      refine if_neg fun hban => ?_
      obtain ⟨b, hb, rfl⟩ := List.mem_map.mp hban
      obtain ⟨hP, w, hw, hwne, haddr, hwverified⟩ := hinv.reason b hb
      obtain ⟨hb', hchecked⟩ := (mem_checked_iff hsorted).mp hP
      obtain ⟨hw', hwchecked⟩ := (mem_checked_iff hsorted).mp hw
      have heq := hlone w.2 ⟨b.1, w.1, hb', hw', hchecked, hwchecked, haddr.symm⟩
        ⟨w.1, hw', hwverified⟩
      rw [heq] at hw'
      exact hwne (Prod.ext (Option.some.inj (hw'.symm.trans hb')) heq)
    · rintro j ⟨v, x, hv, hx, hvchecked, hxchecked, haddr⟩ hne
      obtain ⟨v', hv', hvverified⟩ := hverified
      obtain rfl := Option.some.inj (hv'.symm.trans hv)
      obtain ⟨b, hb, hbaddr⟩ := hinv.bans (v', i) ((mem_checked_iff hsorted).mpr ⟨hv, hvchecked⟩)
        hvverified (x, j) ((mem_checked_iff hsorted).mpr ⟨hx, hxchecked⟩)
        (fun heq => hne (congrArg Prod.snd heq)) haddr.symm
      obtain ⟨hP, w, hw, hwne, hwaddr, hwverified⟩ := hinv.reason b hb
      obtain ⟨hb', hchecked⟩ := (mem_checked_iff hsorted).mp hP
      obtain ⟨hw', hwchecked⟩ := (mem_checked_iff hsorted).mp hw
      have hsame : SameAddr mns i b.2 := ⟨v', b.1, hv, hb', hvchecked, hchecked, hbaddr.symm⟩
      refine ⟨b.2, b.1, b.1.increasePoSeBanScore, hsame, ?_, hb', ?_, rfl⟩
      · -- another verified member would be banned for it
        intro heq
        have hwi := hlone w.2 ⟨v', w.1, hv, hw', hvchecked, hwchecked,
          (hwaddr.trans hbaddr).symm⟩ ⟨w.1, hw', hwverified⟩
        rw [hwi, ← heq] at hw'
        exact hwne (Prod.ext (Option.some.inj (hw'.symm.trans hb')) (hwi.trans heq.symm))
      · rw [hget, if_pos (List.mem_map_of_mem hb), hb']
        rfl

/-- A verified masternode and one with some score, at one address. -/
def sharers (score : ℤ) : List CMasternode :=
  [{ masternodeAt 1 .MASTERNODE_ENABLED with nPoSeBanScore := -5 },
    { masternodeAt 2 .MASTERNODE_ENABLED with nPoSeBanScore := score }]

theorem sharers_sorted (score : ℤ) : SortedByAddr (sharers score) (sharers score).zipIdx :=
  ⟨.refl _, by simp [sharers, compareByAddr, CService.lt, masternodeAt]⟩

theorem checkSameAddr_fair_two : twoOwnersEnv.isSynced = true ∧
    SortedByAddr (sharers 0) (sharers 0).zipIdx ∧
    (checkSameAddr twoOwnersEnv (sharers 0).zipIdx (sharers 0)).map (·.nPoSeBanScore) = [-5, 1] ∧
    SameAddrFair (fun mn mn' => mn' = mn.increasePoSeBanScore) (sharers 0)
      (checkSameAddr twoOwnersEnv (sharers 0).zipIdx (sharers 0)) :=
  ⟨rfl, sharers_sorted 0, by decide +kernel, checkSameAddr_fair rfl (sharers_sorted 0)⟩

/-- **No score goes up** where the other member has the highest one. -/
theorem highest_score_stays : SortedByAddr (sharers 5) (sharers 5).zipIdx ∧
    ¬ SameAddrFair (fun mn mn' => mn.nPoSeBanScore < mn'.nPoSeBanScore) (sharers 5)
      (checkSameAddr twoOwnersEnv (sharers 5).zipIdx (sharers 5)) := by
  refine ⟨sharers_sorted 5, fun h => ?_⟩
  have hsame : checkSameAddr twoOwnersEnv (sharers 5).zipIdx (sharers 5) = sharers 5 := by
    decide +kernel
  rw [hsame] at h
  have hlone : ∀ j, SameAddr (sharers 5) 0 j → VerifiedAt (sharers 5) j → j = 0 := by
    rintro (_ | _ | j) - ⟨mn, hmn, hverified⟩
    · rfl
    · obtain rfl := Option.some.inj hmn
      exact absurd hverified (by decide)
    · exact absurd hmn (by simp [sharers])
  obtain ⟨-, hraised⟩ := h.lone 0 ⟨_, rfl, rfl⟩ hlone
  obtain ⟨k, mn, mn', -, -, hmn, hmn', hlt⟩ := hraised 1 ⟨_, _, rfl, rfl, rfl, rfl, rfl⟩ (by decide)
  obtain rfl := Option.some.inj (hmn.symm.trans hmn')
  exact lt_irrefl _ hlt

end Stonecoin
