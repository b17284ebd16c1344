/-
Votes of unknown masternodes that wait at a governance object:
`CGovernanceObject::CheckOrphanVotes`.

The sweep takes an expired vote out of the cache, but hands it to `ProcessVote` first (the
sweep of `CGovernanceManager` does not): no vote waits too long, and a vote may be recorded
after it has expired.

  * `orphans_expire_iff`: runs.
-/
import Stonecoin.OrphanVotes
import Stonecoin.VoteRates

namespace Stonecoin

/-- What `mapOrphanVotes` lists: a key, a vote and the time when it expires. -/
abbrev OrphanItem := COutPoint × CGovernanceVote × ℤ

/-- A call of `ProcessVote` or `CheckOrphanVotes`; the flag is whether rates are checked. -/
inductive OrphanEvent
  | processVote (env : GovernanceEnv) (fRate : Bool) (vote : CGovernanceVote)
  | checkOrphanVotes (env : GovernanceEnv) (fRate : Bool)

def OrphanEvent.time : OrphanEvent → ℤ
  | processVote env _ _ => env.getAdjustedTime
  | checkOrphanVotes env _ => env.getAdjustedTime

namespace CGovernanceObject

section

variable {H : Type} [DecidableEq H] (hash : CTxIn → UInt256 → ℤ → ℤ → ℤ → H)

def Expired (env : GovernanceEnv) (item : OrphanItem) : Prop := item.2.2 < env.getAdjustedTime

instance (env : GovernanceEnv) (item : OrphanItem) : Decidable (Expired env item) :=
  inferInstanceAs (Decidable (_ < _))

def checkOrphanItem (env : GovernanceEnv) (fRate : Bool) (o : CGovernanceObject H)
    (item : OrphanItem) : CGovernanceObject H :=
  if ¬ Expired env item ∧ env.has item.2.1.vinMasternode = false then o
  else
    let r := o.processVote hash env fRate item.2.1
    if Expired env item ∨ r.fOk = true then
      { r.govobj with
        mapOrphanVotes := r.govobj.mapOrphanVotes.erase voteTimeLt item.1 item.2 }
    else r.govobj

/-- `CheckOrphanVotes`.  New items go in front of the list, and the iterator has left an item
when it is erased: it passes the items that were there. -/
def checkOrphanVotes (env : GovernanceEnv) (fRate : Bool) (o : CGovernanceObject H) :
    CGovernanceObject H :=
  o.mapOrphanVotes.listItems.foldl (checkOrphanItem hash env fRate) o

def stepOrphan (o : CGovernanceObject H) : OrphanEvent → CGovernanceObject H
  | .processVote env fRate vote => (o.processVote hash env fRate vote).govobj
  | .checkOrphanVotes env fRate => o.checkOrphanVotes hash env fRate

def runOrphans (o : CGovernanceObject H) (es : List OrphanEvent) : CGovernanceObject H :=
  es.foldl (stepOrphan hash) o

omit [DecidableEq H] in
def Waits (o : CGovernanceObject H) (vote : CGovernanceVote) : Prop :=
  ∃ item ∈ o.mapOrphanVotes.listItems, item.2.1 = vote

instance (o : CGovernanceObject H) (vote : CGovernanceVote) : Decidable (o.Waits vote) :=
  inferInstanceAs (Decidable (∃ item ∈ _, _))

/-- When a vote arrived first, of the votes that wait after some events. -/
def arrival (vote : CGovernanceVote) : CGovernanceObject H → Option ℤ → List OrphanEvent → Option ℤ
  | _, first, [] => first
  | o, first, e :: es =>
    let o' := o.stepOrphan hash e
    arrival vote o'
      (if o'.Waits vote then if o.Waits vote then first else some e.time else none) es

/-- A property of every item of a sweep, in the state that it meets. -/
def EachItem (env : GovernanceEnv) (fRate : Bool) (P : CGovernanceObject H → OrphanItem → Prop) :
    List OrphanItem → CGovernanceObject H → Prop
  | [], _ => True
  | item :: items, o => P o item ∧ EachItem env fRate P items (checkOrphanItem hash env fRate o item)

/-- **Orphan votes expire**: after a sweep no vote waits that arrived too long ago, and the
sweep has recorded no expired vote. -/
structure SweepOk (o : CGovernanceObject H) (first : CGovernanceVote → Option ℤ)
    (env : GovernanceEnv) (fRate : Bool) : Prop where
  waiting : ∀ vote, (o.checkOrphanVotes hash env fRate).Waits vote →
    ∃ t, first vote = some t ∧ env.getAdjustedTime ≤ t + GOVERNANCE_ORPHAN_EXPIRATION_TIME
  recorded : EachItem hash env fRate (fun o item => Expired env item →
    (o.processVote hash env fRate item.2.1).fOk = false) o.mapOrphanVotes.listItems o

/-- Every expired vote of a sweep fails a check of `ProcessVote`. -/
def RefusesExpired (o : CGovernanceObject H) (env : GovernanceEnv) (fRate : Bool) : Prop :=
  EachItem hash env fRate (fun o item => Expired env item →
    ¬ (o.PassesOthers ⟨env, item.2.1⟩ ∧ (fRate = true → GOVERNANCE_UPDATE_MIN ≤
      env.getTime - (o.instanceOf (env.getMasternodeIndex item.2.1.vinMasternode.prevout)
        item.2.1.getSignal).nTime))) o.mapOrphanVotes.listItems o

end

variable {H : Type} [DecidableEq H] {hash : CTxIn → UInt256 → ℤ → ℤ → ℤ → H}
  {o : CGovernanceObject H} {env : GovernanceEnv} {fRate : Bool}

/-! ### The waiting votes -/

/-- Every vote waits under its masternode, one vote for each. -/
structure OrphansOk (o : CGovernanceObject H) : Prop where
  cache : o.mapOrphanVotes.OneEach
  key : ∀ item ∈ o.mapOrphanVotes.listItems, item.1 = item.2.1.vinMasternode.prevout

variable (hash o env fRate) in
theorem mapOrphanVotes_processVote (vote : CGovernanceVote) :
    (o.processVote hash env fRate vote).govobj.mapOrphanVotes =
      if env.getMasternodeIndex vote.vinMasternode.prevout < 0 then
        (o.mapOrphanVotes.insert voteTimeLt vote.vinMasternode.prevout
          (vote, env.getAdjustedTime + GOVERNANCE_ORPHAN_EXPIRATION_TIME)).2
      else o.mapOrphanVotes := by
  split
  next hindex =>
    rw [processVote]
    dsimp only
    rw [if_pos hindex]
  next hindex =>
    have hindex := Int.not_lt.mp hindex
    by_cases hs : Supported vote.getSignal
    · rw [processVote_supported hindex hs]
      dsimp only
      split_ifs <;> rfl
    · rw [(processVote_unsupported hash o fRate hindex hs).2]
      rfl

namespace OrphansOk

variable (hash env fRate) in
theorem processVote (h : OrphansOk o) (vote : CGovernanceVote) :
    OrphansOk (o.processVote hash env fRate vote).govobj ∧
      ((o.processVote hash env fRate vote).govobj.mapOrphanVotes.listItems =
          o.mapOrphanVotes.listItems ∨
        ¬ o.Waits vote ∧ (o.processVote hash env fRate vote).govobj.mapOrphanVotes.listItems =
          (vote.vinMasternode.prevout, vote,
            env.getAdjustedTime + GOVERNANCE_ORPHAN_EXPIRATION_TIME) ::
            o.mapOrphanVotes.listItems) := by
  have hmap := mapOrphanVotes_processVote hash o env fRate vote
  by_cases hindex : env.getMasternodeIndex vote.vinMasternode.prevout < 0
  · rw [if_pos hindex] at hmap
    by_cases hkey : vote.vinMasternode.prevout ∈ o.mapOrphanVotes.listItems.map Prod.fst
    · rw [h.cache.insert_of_mem voteTimeLt_eq_false hkey] at hmap
      refine ⟨⟨?_, ?_⟩, Or.inl (by rw [hmap])⟩
      · rw [hmap]
        exact h.cache
      · rw [hmap]
        exact h.key
    · obtain ⟨hcache, hitems⟩ := h.cache.insert_of_notMem voteTimeLt hkey
        (vote, env.getAdjustedTime + GOVERNANCE_ORPHAN_EXPIRATION_TIME)
      rw [← hmap] at hcache hitems
      refine ⟨⟨hcache, ?_⟩, Or.inr ⟨?_, hitems⟩⟩
      · rw [hitems]
        intro item hitem
        rcases List.mem_cons.mp hitem with rfl | hitem
        · rfl
        · exact h.key item hitem
      · -- it would wait under its key
        rintro ⟨item, hitem, rfl⟩
        exact hkey (List.mem_map.mpr ⟨item, hitem, h.key item hitem⟩)
  · rw [if_neg hindex] at hmap
    refine ⟨⟨?_, ?_⟩, Or.inl (by rw [hmap])⟩
    · rw [hmap]
      exact h.cache
    · rw [hmap]
      exact h.key

variable (hash env fRate) in
theorem checkOrphanItem (h : OrphansOk o) {item : OrphanItem}
    (hitem : item ∈ o.mapOrphanVotes.listItems) :
    OrphansOk (o.checkOrphanItem hash env fRate item) ∧
      (∀ x ∈ (o.checkOrphanItem hash env fRate item).mapOrphanVotes.listItems,
        x ∈ o.mapOrphanVotes.listItems ∧ (x = item → ¬ Expired env item)) ∧
      ∀ x ∈ o.mapOrphanVotes.listItems, x ≠ item →
        x ∈ (o.checkOrphanItem hash env fRate item).mapOrphanVotes.listItems := by
  -- `ProcessVote` leaves the cache: the vote waits there already
  have hsame : (o.processVote hash env fRate item.2.1).govobj.mapOrphanVotes =
      o.mapOrphanVotes := by
    rw [mapOrphanVotes_processVote]
    split
    · rw [h.cache.insert_of_mem voteTimeLt_eq_false]
      rw [← h.key item hitem]
      exact List.mem_map_of_mem hitem
    · rfl
  unfold CGovernanceObject.checkOrphanItem
  split
  next hskip => exact ⟨h, fun x hx => ⟨hx, fun _ => hskip.1⟩, fun x hx _ => hx⟩
  next =>
    dsimp only
    split
    next =>
      obtain ⟨hcache, hitems⟩ := h.cache.erase voteTimeLt_eq_false hitem
      rw [hsame]
      refine ⟨⟨hcache, fun x hx => h.key x ((hitems x).mp hx).1⟩, fun x hx => ?_, fun x hx hne => ?_⟩
      · obtain ⟨hmem, hne⟩ := (hitems x).mp hx
        exact ⟨hmem, fun he => absurd he hne⟩
      · exact (hitems x).mpr ⟨hx, hne⟩
    next hkeep =>
      rw [hsame]
      refine ⟨⟨?_, ?_⟩, fun x hx => ⟨hx, fun _ he => hkeep (Or.inl he)⟩, fun x hx _ => hx⟩
      · rw [hsame]
        exact h.cache
      · rw [hsame]
        exact h.key

variable (hash env fRate) in
theorem foldl_checkOrphanItem : ∀ {items : List OrphanItem} {o : CGovernanceObject H},
    OrphansOk o → items.Nodup → items ⊆ o.mapOrphanVotes.listItems →
    OrphansOk (items.foldl (CGovernanceObject.checkOrphanItem hash env fRate) o) ∧
      ∀ x ∈ (items.foldl (CGovernanceObject.checkOrphanItem hash env fRate)
        o).mapOrphanVotes.listItems,
        x ∈ o.mapOrphanVotes.listItems ∧ (x ∈ items → ¬ Expired env x) := by
  intro items
  induction items with
  | nil => exact fun h _ _ => ⟨h, fun x hx => ⟨hx, fun hmem => nomatch hmem⟩⟩
  | cons item items ih =>
    intro o h hnodup hsub
    rw [List.nodup_cons] at hnodup
    obtain ⟨hitem, hsub⟩ := List.cons_subset.mp hsub
    obtain ⟨hok, hfew, hmost⟩ :=
      h.checkOrphanItem hash env fRate hitem
    have hsub' : items ⊆ (o.checkOrphanItem hash env fRate item).mapOrphanVotes.listItems :=
      fun x hx => hmost x (hsub hx) (ne_of_mem_of_not_mem hx hnodup.1)
    obtain ⟨hok', hrest⟩ := ih hok hnodup.2 hsub'
    refine ⟨hok', fun x hx => ?_⟩
    obtain ⟨hmem, hexp⟩ := hrest x hx
    obtain ⟨hmem, hitemexp⟩ := hfew x hmem
    refine ⟨hmem, fun hcons => ?_⟩
    rcases List.mem_cons.mp hcons with rfl | hcons
    · exact hitemexp rfl
    · exact hexp hcons

variable (hash env fRate) in
theorem checkOrphanVotes (h : OrphansOk o) :
    OrphansOk (o.checkOrphanVotes hash env fRate) ∧
      ∀ x ∈ (o.checkOrphanVotes hash env fRate).mapOrphanVotes.listItems,
        x ∈ o.mapOrphanVotes.listItems ∧ ¬ Expired env x := by
  obtain ⟨hok, hitems⟩ := foldl_checkOrphanItem hash env fRate h
    h.cache.nodup.of_map (List.Subset.refl _)
  exact ⟨hok, fun x hx => ⟨(hitems x hx).1, (hitems x hx).2 (hitems x hx).1⟩⟩

end OrphansOk

/-! ### Runs -/

/-- Every waiting vote expires ten minutes after it arrived. -/
structure Arrived (first : CGovernanceVote → Option ℤ) (o : CGovernanceObject H) : Prop
    extends OrphansOk o where
  first : ∀ x ∈ o.mapOrphanVotes.listItems,
    first x.2.1 = some (x.2.2 - GOVERNANCE_ORPHAN_EXPIRATION_TIME)

variable (hash) in
theorem Arrived.step {first : CGovernanceVote → Option ℤ} (h : Arrived first o) (e : OrphanEvent) :
    Arrived (fun vote => if (o.stepOrphan hash e).Waits vote then
      if o.Waits vote then first vote else some e.time else none) (o.stepOrphan hash e) := by
  -- a vote that waited before keeps its time
  have hold : ∀ x ∈ o.mapOrphanVotes.listItems,
      x ∈ (o.stepOrphan hash e).mapOrphanVotes.listItems →
      (if (o.stepOrphan hash e).Waits x.2.1 then
        if o.Waits x.2.1 then first x.2.1 else some e.time else none) =
        some (x.2.2 - GOVERNANCE_ORPHAN_EXPIRATION_TIME) := by
    intro x hx hx'
    rw [if_pos ⟨x, hx', rfl⟩, if_pos ⟨x, hx, rfl⟩, h.first x hx]
  cases e with
  | processVote env fRate vote =>
    obtain ⟨hok, hitems⟩ := h.toOrphansOk.processVote hash env fRate vote
    refine ⟨hok, fun x hx => ?_⟩
    rcases hitems with hitems | ⟨hnew, hitems⟩
    · exact hold x (by rw [← hitems]; exact hx) hx
    · rcases List.mem_cons.mp (hitems ▸ hx) with rfl | hmem
      · rw [if_pos ⟨_, hx, rfl⟩, if_neg hnew]
        simp [OrphanEvent.time]
      · exact hold x hmem hx
  | checkOrphanVotes env fRate =>
    obtain ⟨hok, hitems⟩ := h.toOrphansOk.checkOrphanVotes hash env fRate
    exact ⟨hok, fun x hx => hold x (hitems x hx).1 hx⟩

variable (hash) in
theorem Arrived.run (es : List OrphanEvent) : ∀ {o : CGovernanceObject H}
    {first : CGovernanceVote → Option ℤ}, Arrived first o →
    Arrived (fun vote => arrival hash vote o (first vote) es) (o.runOrphans hash es) := by
  induction es with
  | nil => exact fun h => h
  | cons e es ih => exact fun h => ih (h.step hash e)

omit [DecidableEq H] in
theorem arrived_new (hempty : o.mapOrphanVotes = .of 0) : Arrived (fun _ => none) o := by
  refine ⟨⟨?_, ?_⟩, ?_⟩
  · rw [hempty]
    exact CacheMultiMap.oneEach_of
  · rw [hempty]
    exact fun x hx => nomatch hx
  · rw [hempty]
    exact fun x hx => nomatch hx

theorem eachItem_congr {P Q : CGovernanceObject H → OrphanItem → Prop}
    (h : ∀ o item, P o item ↔ Q o item) : ∀ {items : List OrphanItem} {o : CGovernanceObject H},
    EachItem hash env fRate P items o ↔ EachItem hash env fRate Q items o := by
  intro items
  induction items with
  | nil => exact Iff.rfl
  | cons item items ih => exact and_congr (h _ _) ih

/-- **When orphan votes expire**: whenever the sweep comes to an expired vote, the vote must
fail a check of `ProcessVote`.  That no vote waits too long needs nothing. -/
theorem orphans_expire_iff (hempty : o.mapOrphanVotes = .of 0) (es : List OrphanEvent) :
    (∀ pre env fRate post, es = pre ++ .checkOrphanVotes env fRate :: post →
      SweepOk hash (o.runOrphans hash pre)
        (fun vote => arrival hash vote o none (pre ++ [.checkOrphanVotes env fRate])) env fRate) ↔
    ∀ pre env fRate post, es = pre ++ .checkOrphanVotes env fRate :: post →
      RefusesExpired hash (o.runOrphans hash pre) env fRate := by
  have hrecorded : ∀ env fRate (o : CGovernanceObject H),
      EachItem hash env fRate (fun o item => Expired env item →
        (o.processVote hash env fRate item.2.1).fOk = false) o.mapOrphanVotes.listItems o ↔
      RefusesExpired hash o env fRate := by
    intro env fRate o
    apply eachItem_congr
    intro o item
    rw [← Bool.not_eq_true]
    exact imp_congr_right fun _ => not_congr (fOk_processVote ⟨env, item.2.1⟩)
  constructor
  · intro h pre env fRate post hes
    exact (hrecorded _ _ _).mp (h pre env fRate post hes).recorded
  · intro h pre env fRate post hes
    refine ⟨?_, (hrecorded _ _ _).mpr (h pre env fRate post hes)⟩
    rintro _ ⟨x, hx, rfl⟩
    have hbefore := (arrived_new hempty).run hash pre
    have hafter := (arrived_new hempty).run hash (pre ++ [.checkOrphanVotes env fRate])
    have hrun : o.runOrphans hash (pre ++ [.checkOrphanVotes env fRate]) =
        (o.runOrphans hash pre).checkOrphanVotes hash env fRate := by
      rw [runOrphans, List.foldl_append]
      rfl
    rw [hrun] at hafter
    have hlive := ((hbefore.toOrphansOk.checkOrphanVotes hash env fRate).2 x hx).2
    refine ⟨_, hafter.first x hx, ?_⟩
    unfold Expired at hlive
    omega

/-- The environment of a second, with all masternodes or with none. -/
def secondEnv (fKnown : Bool) (nTime : ℤ) : GovernanceEnv :=
  let env := { openEnv with getTime := nTime, getAdjustedTime := nTime }
  if fKnown then env else env.withoutMasternodes

/-- A vote arrives before its masternode, and is recorded in time. -/
theorem orphans_expire_iff_minute :
    SweepOk voteTuple (object5.runOrphans voteTuple [.processVote (secondEnv false 1500000000)
        true (fundingVote 0 VOTE_OUTCOME_YES)])
      (fun vote => arrival voteTuple vote object5 none
        [.processVote (secondEnv false 1500000000) true (fundingVote 0 VOTE_OUTCOME_YES),
          .checkOrphanVotes (secondEnv true 1500000060) true])
      (secondEnv true 1500000060) true := by
  have hall := (@orphans_expire_iff _ _ voteTuple object5 rfl
    [.processVote (secondEnv false 1500000000) true (fundingVote 0 VOTE_OUTCOME_YES),
      .checkOrphanVotes (secondEnv true 1500000060) true]).mpr ?_
  · exact hall [_] _ _ [] rfl
  · intro pre env fRate post hes
    match pre, hes with
    | [], hes => cases hes
    | [_], hes =>
      cases hes
      refine ⟨fun h => ?_, trivial⟩
      exact absurd h (by decide +kernel)
    | _ :: _ :: _, hes => simp at hes

/-- **An expired vote is recorded**, if its masternode has become known. -/
theorem expired_vote_recorded :
    ¬ SweepOk voteTuple (object5.runOrphans voteTuple [.processVote (secondEnv false 1500000000)
        true (fundingVote 0 VOTE_OUTCOME_YES)])
      (fun vote => arrival voteTuple vote object5 none
        [.processVote (secondEnv false 1500000000) true (fundingVote 0 VOTE_OUTCOME_YES),
          .checkOrphanVotes (secondEnv true 1500000601) true])
      (secondEnv true 1500000601) true := by
  intro h
  have hrecorded := h.recorded.1 (by decide +kernel)
  revert hrecorded
  decide +kernel

end CGovernanceObject

end Stonecoin
