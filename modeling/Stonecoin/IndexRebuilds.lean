/-
Votes survive rebuilds of the masternode index, as long as nothing looks at a vote map with the
numbers of another index (`VotingNode.Safe`).

  * `votes_survive`: every run of safe events.
-/
import Stonecoin.CollateralOwnership
import Stonecoin.IndexedVotes
import Stonecoin.OrphanVotes

namespace Stonecoin

variable {H : Type} [DecidableEq H] {hash : CTxIn → UInt256 → ℤ → ℤ → ℤ → H}

/-! ### Vote maps -/

namespace CGovernanceObject

variable {o o' : CGovernanceObject H} {env : GovernanceEnv} {i j : ℤ} {recVote : vote_rec_t}

theorem lookup_renumbered {renumber : ℤ → Option ℤ}
    (hinj : 0 ≤ j → ∀ i i', renumber i = some j → renumber i' = some j → i = i') :
    ∀ (es : List (Sigma fun _ : ℤ => vote_rec_t)) (m : AList fun _ : ℤ => vote_rec_t),
      (es.map Sigma.fst).Nodup → ((es.foldl (fun mapMNVotesNew it =>
        match renumber it.1 with
        | none => mapMNVotesNew
        | some nNewIndex =>
          if 0 ≤ nNewIndex then mapMNVotesNew.insert nNewIndex it.2 else mapMNVotesNew) m).lookup j
        = some recVote ↔ (∃ e ∈ es, (0 ≤ j ∧ renumber e.1 = some j) ∧ e.2 = recVote) ∨
          (∀ e ∈ es, ¬ (0 ≤ j ∧ renumber e.1 = some j)) ∧ m.lookup j = some recVote)
  | [], m, _ => by simp
  | e :: es, m, hnodup => by
    rw [List.map_cons, List.nodup_cons] at hnodup
    rw [List.foldl_cons, lookup_renumbered hinj es _ hnodup.2]
    by_cases hhit : 0 ≤ j ∧ renumber e.1 = some j
    · -- no other record gets this number
      have hrest : ∀ e' ∈ es, ¬ (0 ≤ j ∧ renumber e'.1 = some j) := by
        rintro e' he' ⟨hj, heq⟩
        rw [hinj hj _ _ hhit.2 heq] at hnodup
        exact hnodup.1 (List.mem_map_of_mem he')
      simp only [hhit.2, if_pos hhit.1, AList.lookup_insert, List.mem_cons, exists_eq_or_imp,
        forall_eq_or_imp]
      constructor
      · rintro (⟨e', he', heq, -⟩ | ⟨-, heq⟩)
        · exact absurd heq (hrest e' he')
        · exact .inl (.inl ⟨⟨hhit.1, trivial⟩, Option.some.inj heq⟩)
      · rintro ((⟨-, heq⟩ | ⟨e', he', heq, -⟩) | ⟨⟨hne, -⟩, -⟩)
        · exact .inr ⟨hrest, congrArg some heq⟩
        · exact absurd heq (hrest e' he')
        · exact absurd ⟨hhit.1, trivial⟩ hne
    · have hsame : (match renumber e.1 with
          | none => m
          | some nNewIndex => if 0 ≤ nNewIndex then m.insert nNewIndex e.2 else m).lookup j =
          m.lookup j := by
        cases hnew : renumber e.1 with
        | none => rfl
        | some k =>
          dsimp only
          split_ifs with hk
          · exact AList.lookup_insert_ne fun h => hhit ⟨h ▸ hk, h ▸ hnew⟩
          · rfl
      rw [hsame]
      simp only [List.mem_cons, exists_eq_or_imp, forall_eq_or_imp, hhit, false_and, false_or,
        not_false_eq_true, true_and]

omit [DecidableEq H] in
theorem lookup_rebuildVoteMap {renumber : ℤ → Option ℤ}
    (hinj : 0 ≤ j → ∀ i i', renumber i = some j → renumber i' = some j → i = i') :
    (o.rebuildVoteMap renumber).mapCurrentMNVotes.lookup j = some recVote ↔
      0 ≤ j ∧ ∃ i, renumber i = some j ∧ o.mapCurrentMNVotes.lookup i = some recVote := by
  refine (lookup_renumbered hinj o.mapCurrentMNVotes.entries ∅ o.mapCurrentMNVotes.nodupKeys).trans ?_
  constructor
  · rintro (⟨⟨i, recVote'⟩, he, ⟨hj, hi⟩, rfl⟩ | ⟨-, hempty⟩)
    · exact ⟨hj, i, hi, AList.mem_lookup_iff.mpr he⟩
    · exact absurd hempty (by simp)
  · rintro ⟨hj, i, hi, hlookup⟩
    exact .inl ⟨⟨i, recVote⟩, AList.mem_lookup_iff.mp hlookup, ⟨hj, hi⟩, rfl⟩

variable (hash) in
theorem lookup_clearMasternode (k : ℤ) :
    (o.clearMasternode hash env k).mapCurrentMNVotes.lookup i =
      if i = k ∧ (env.getMasternodeVin i).any env.has = false then none
      else o.mapCurrentMNVotes.lookup i := by
  have herase : (o.mapCurrentMNVotes.erase k).lookup i =
      if i = k then none else o.mapCurrentMNVotes.lookup i := by
    split_ifs with hk
    · rw [hk, AList.lookup_erase]
    · exact AList.lookup_erase_ne hk
  rw [clearMasternode]
  cases hvin : env.getMasternodeVin k with
  | none =>
    refine herase.trans (if_congr ⟨fun hk => ⟨hk, ?_⟩, fun h => h.1⟩ rfl rfl)
    rw [hk, hvin]
    rfl
  | some vin =>
    dsimp only
    split_ifs with hhas hgone hgone
    · obtain ⟨rfl, hnone⟩ := hgone
      rw [hvin, Option.any_some, hhas] at hnone
      exact absurd hnone (by decide)
    · rfl
    · refine herase.trans (if_pos hgone.1)
    · refine herase.trans (if_neg fun hk => hgone ⟨hk, ?_⟩)
      rw [hk, hvin, Option.any_some]
      simpa using hhas

variable (hash) in
theorem lookup_clearMasternodeVotes :
    (o.clearMasternodeVotes hash env).mapCurrentMNVotes.lookup i =
      if (env.getMasternodeVin i).any env.has then o.mapCurrentMNVotes.lookup i else none := by
  have hloop : ∀ (keys : List ℤ) (o : CGovernanceObject H),
      (keys.foldl (clearMasternode hash env) o).mapCurrentMNVotes.lookup i =
        if i ∈ keys ∧ (env.getMasternodeVin i).any env.has = false then none
        else o.mapCurrentMNVotes.lookup i := by
    intro keys
    induction keys with
    | nil => simp
    | cons k keys ih =>
      intro o
      rw [List.foldl_cons, ih, lookup_clearMasternode]
      rcases eq_or_ne i k with rfl | hne
      · by_cases hgone : (env.getMasternodeVin i).any env.has = false
        · simp [hgone]
        · simp [hgone]
      · simp [hne]
  rw [clearMasternodeVotes, hloop]
  cases hknown : (env.getMasternodeVin i).any env.has with
  | true => simp
  | false =>
    by_cases hkey : i ∈ o.mapCurrentMNVotes.keys
    · simp [hkey]
    · have hnone : o.mapCurrentMNVotes.lookup i = none :=
        AList.lookup_eq_none.mpr fun h => hkey (AList.mem_keys.mp h)
      simp [hkey, hnone]

variable (hash) in
theorem getInstance_of_processVote {fRate : Bool} {vote : CGovernanceVote} {eSignal : ℤ}
    {voteInstance : vote_instance_t}
    (h : (o.processVote hash env fRate vote).govobj.getInstance i eSignal = some voteInstance) :
    o.getInstance i eSignal = some voteInstance ∨ voteInstance = .default ∨
      (0 ≤ i ∧ i = env.getMasternodeIndex vote.vinMasternode.prevout ∧ eSignal = vote.getSignal ∧
        vote.getOutcome = voteInstance.eOutcome ∧ vote.nTime = voteInstance.nCreationTime ∧
        env.isValid vote = true) := by
  have htouched : (o.touch (env.getMasternodeIndex vote.vinMasternode.prevout)
      vote.getSignal).getInstance i eSignal = some voteInstance →
      o.getInstance i eSignal = some voteInstance ∨ voteInstance = .default := by
    intro ht
    rw [getInstance_touched] at ht
    split_ifs at ht with hat
    · obtain ⟨rfl, rfl⟩ := hat
      rw [instanceOf] at ht
      cases hold : o.getInstance (env.getMasternodeIndex vote.vinMasternode.prevout)
          vote.getSignal with
      | none =>
        rw [hold] at ht
        exact .inr (Option.some.inj ht).symm
      | some old =>
        rw [hold] at ht
        exact .inl ht
    · exact .inl ht
  by_cases hindex : 0 ≤ env.getMasternodeIndex vote.vinMasternode.prevout
  · by_cases hs : Supported vote.getSignal
    · rw [processVote_supported hindex hs] at h
      dsimp only at h
      split_ifs at h with hold hrate hvalid hhas
      · exact (htouched h).imp_right .inl
      · exact (htouched h).imp_right .inl
      · exact (htouched h).imp_right .inl
      · exact (htouched h).imp_right .inl
      · dsimp only at h
        rw [getInstance_record] at h
        split_ifs at h with hat
        · obtain ⟨rfl, rfl⟩ := hat
          obtain rfl := Option.some.inj h
          exact .inr (.inr ⟨hindex, rfl, rfl, rfl, rfl, by simpa using hvalid⟩)
        · exact .inl h
    · rw [(processVote_unsupported hash o fRate hindex hs).2, getInstance_touch] at h
      exact .inl h
  · -- a masternode without an index: the vote waits
    rw [processVote] at h
    dsimp only at h
    rw [if_pos (Int.not_le.mp hindex)] at h
    exact .inl h

variable (hash o) in
theorem getInstance_processVote_ne (fRate : Bool) (vote : CGovernanceVote) {eSignal : ℤ}
    (hne : i ≠ env.getMasternodeIndex vote.vinMasternode.prevout) :
    (o.processVote hash env fRate vote).govobj.getInstance i eSignal = o.getInstance i eSignal := by
  have htouched : (o.touch (env.getMasternodeIndex vote.vinMasternode.prevout)
      vote.getSignal).getInstance i eSignal = o.getInstance i eSignal := by
    rw [getInstance_touched, if_neg fun h => hne h.1]
  by_cases hindex : 0 ≤ env.getMasternodeIndex vote.vinMasternode.prevout
  · by_cases hs : Supported vote.getSignal
    · rw [processVote_supported hindex hs]
      dsimp only
      split_ifs
      · exact htouched
      · exact htouched
      · exact htouched
      · exact htouched
      · rw [getInstance_record, if_neg fun h => hne h.1]
    · rw [(processVote_unsupported hash o fRate hindex hs).2, getInstance_touch]
  · rw [processVote]
    dsimp only
    rw [if_pos (Int.not_le.mp hindex)]
    rfl

variable (hash o) in
theorem processVote_first (fRate : Bool) (vote : CGovernanceVote)
    (hindex : 0 ≤ env.getMasternodeIndex vote.vinMasternode.prevout)
    (hs : Supported vote.getSignal) (hvalid : env.isValid vote = true)
    (hhas : env.has vote.vinMasternode = true)
    (hfirst : o.instanceOf (env.getMasternodeIndex vote.vinMasternode.prevout) vote.getSignal =
      .default)
    (htime : 0 ≤ vote.nTime) (hnow : GOVERNANCE_UPDATE_MIN ≤ env.getTime) :
    (o.processVote hash env fRate vote).govobj =
      o.record hash (env.getMasternodeIndex vote.vinMasternode.prevout) vote := by
  have hrate : ¬ (fRate && decide (env.getTime - vote_instance_t.default.nTime <
      GOVERNANCE_UPDATE_MIN)) = true := by
    rw [Bool.and_eq_true, decide_eq_true_iff]
    rintro ⟨-, hlt⟩
    have hnow' : env.getTime - 0 < GOVERNANCE_UPDATE_MIN := hlt
    omega
  have hfresh : ¬ vote.nTime < vote_instance_t.default.nCreationTime := Int.not_lt.mpr htime
  rw [processVote_supported hindex hs]
  dsimp only
  rw [hfirst, if_neg hfresh, if_neg hrate, hvalid, hhas]
  rfl

end CGovernanceObject

/-! ### The governance objects -/

namespace CGovernanceManager

variable {m m' m'' : CGovernanceManager H} {env : ManagerEnv}

/-- The objects come from objects that had the same records, and maybe more. -/
def Thinned (m m' : CGovernanceManager H) : Prop :=
  ∀ nHash st', m'.mapObjects.lookup nHash = some st' → ∃ st, m.mapObjects.lookup nHash = some st ∧
    ∀ i recVote, st'.govobj.mapCurrentMNVotes.lookup i = some recVote →
      st.govobj.mapCurrentMNVotes.lookup i = some recVote

omit [DecidableEq H] in
theorem Thinned.refl (m : CGovernanceManager H) : m.Thinned m :=
  fun _ st hst => ⟨st, hst, fun _ _ h => h⟩

omit [DecidableEq H] in
theorem Thinned.trans (h : m.Thinned m') (h' : m'.Thinned m'') : m.Thinned m'' := by
  intro nHash st'' hst''
  obtain ⟨st', hst', hsub'⟩ := h' nHash st'' hst''
  obtain ⟨st, hst, hsub⟩ := h nHash st' hst'
  exact ⟨st, hst, fun i recVote hrec => hsub i recVote (hsub' i recVote hrec)⟩

omit [DecidableEq H] in
theorem Thinned.of_eq (h : m'.mapObjects = m.mapObjects) : m.Thinned m' := by
  intro nHash st hst
  rw [h] at hst
  exact ⟨st, hst, fun _ _ hrec => hrec⟩

omit [DecidableEq H] in
theorem Thinned.foldl {ι : Type} {f : CGovernanceManager H → ι → CGovernanceManager H}
    (hf : ∀ m i, Thinned m (f m i)) : ∀ (l : List ι) (m : CGovernanceManager H),
      m.Thinned (l.foldl f m)
  | [], m => .refl m
  | i :: l, m => (hf m i).trans (Thinned.foldl hf l (f m i))

omit [DecidableEq H] in
theorem thinned_modifyObject (nHash : UInt256) {f : CGovernanceObject H → CGovernanceObject H}
    (hf : ∀ o i recVote, (f o).mapCurrentMNVotes.lookup i = some recVote →
      o.mapCurrentMNVotes.lookup i = some recVote) : m.Thinned (m.modifyObject nHash f) := by
  intro nHash' st' hst'
  rw [lookup_modifyObject] at hst'
  split_ifs at hst' with hk
  · obtain ⟨st, hst, rfl⟩ := Option.map_eq_some_iff.mp hst'
    exact ⟨st, hk ▸ hst, hf st.govobj⟩
  · exact ⟨st', hst', fun _ _ h => h⟩

omit [DecidableEq H] in
theorem thinned_expireWatchdogs : m.Thinned (m.expireWatchdogs env) := by
  have hstep : ∀ (m : CGovernanceManager H) (e : Sigma fun _ : UInt256 => ℤ),
      m.Thinned (m.expireWatchdog env e) := by
    intro m e
    rw [expireWatchdog]
    split_ifs
    · refine Thinned.trans (thinned_modifyObject e.1 ?_) (.of_eq rfl)
      exact fun _ _ _ h => h
    · exact .refl m
  rw [expireWatchdogs]
  split_ifs
  · exact .foldl hstep _ m
  · exact .refl m

theorem thinned_clearDirtyObjects : m.Thinned (m.clearDirtyObjects hash env) := by
  apply Thinned.foldl
  intro m nHash
  apply thinned_modifyObject
  intro o i recVote h
  have hcleared : (o.clearMasternodeVotes hash env.toGovernanceEnv).mapCurrentMNVotes.lookup i =
      some recVote := h
  rw [CGovernanceObject.lookup_clearMasternodeVotes] at hcleared
  split_ifs at hcleared
  exact hcleared

omit [DecidableEq H] in
theorem thinned_cleanTriggers : m.Thinned (m.cleanTriggers env) := by
  apply Thinned.foldl
  intro m nHash
  split_ifs
  · exact thinned_modifyObject nHash fun _ _ _ h => h
  · exact .refl m

omit [DecidableEq H] in
variable (m env) in
theorem thinned_updateCurrentWatchdog (govobj : CGovernanceObject H) :
    m.Thinned (m.updateCurrentWatchdog env govobj).2 := by
  rw [updateCurrentWatchdog]
  dsimp only
  split_ifs
  · refine Thinned.trans (thinned_modifyObject m.nHashWatchdogCurrent ?_) (.of_eq rfl)
    exact fun _ _ _ h => h
  · exact .refl m

omit [DecidableEq H] in
theorem mapCurrentMNVotes_updateSentinelVariables (env : GovernanceEnv) (o : CGovernanceObject H) :
    (o.updateSentinelVariables env).mapCurrentMNVotes = o.mapCurrentMNVotes := by
  rw [CGovernanceObject.updateSentinelVariables]
  split_ifs <;> rfl

omit [DecidableEq H] in
theorem thinned_erase {nHash : UInt256} (h : m'.mapObjects = m.mapObjects.erase nHash) :
    m.Thinned m' := by
  intro nHash' st hst
  rw [h] at hst
  refine ⟨st, ?_, fun _ _ hrec => hrec⟩
  rcases eq_or_ne nHash' nHash with rfl | hne
  · rw [AList.lookup_erase] at hst
    exact absurd hst (by simp)
  · rwa [AList.lookup_erase_ne hne] at hst

theorem thinned_cleanObject (nHash : UInt256) : m.Thinned (m.cleanObject env nHash) := by
  have hfirst : m.Thinned (m.modifyObject nHash fun o =>
      if o.fDirtyCache then o.updateSentinelVariables env.toGovernanceEnv else o) := by
    apply thinned_modifyObject
    intro o i recVote h
    split_ifs at h
    · rwa [mapCurrentMNVotes_updateSentinelVariables] at h
    · exact h
  simp only [cleanObject]
  generalize (m.modifyObject nHash fun o =>
      if o.fDirtyCache then o.updateSentinelVariables env.toGovernanceEnv else o) = m₁ at hfirst ⊢
  cases m₁.mapObjects.lookup nHash with
  | none => exact hfirst
  | some st =>
    have hsame : (if st.govobj.fCachedDelete && decide (nHash = m₁.nHashWatchdogCurrent) then
        { m₁ with nHashWatchdogCurrent := 0 } else m₁).mapObjects = m₁.mapObjects := by
      split_ifs <;> rfl
    dsimp only
    generalize (if st.govobj.fCachedDelete && decide (nHash = m₁.nHashWatchdogCurrent) then
        { m₁ with nHashWatchdogCurrent := 0 } else m₁) = m₂ at hsame ⊢
    split_ifs
    · exact hfirst.trans (thinned_erase (congrArg (AList.erase nHash) hsame))
    · exact hfirst.trans (thinned_erase (congrArg (AList.erase nHash) hsame))
    · exact hfirst.trans (.of_eq hsame)

theorem thinned_updateCachesAndClean : m.Thinned (m.updateCachesAndClean hash env) := by
  have hcleared : m.Thinned ((m.expireWatchdogs env).clearDirtyObjects hash env) :=
    thinned_expireWatchdogs.trans thinned_clearDirtyObjects
  rw [updateCachesAndClean]
  dsimp only
  generalize (m.expireWatchdogs env).clearDirtyObjects hash env = m₁ at hcleared ⊢
  split_ifs
  · exact hcleared
  · have htriggers : m.Thinned (m₁.cleanTriggers env) := hcleared.trans thinned_cleanTriggers
    have hclean : (m₁.cleanTriggers env).Thinned ((m₁.cleanTriggers env).mapObjects.keys.foldl
        (cleanObject env) { m₁.cleanTriggers env with fRateChecksEnabled := false }) :=
      Thinned.trans (.of_eq rfl) (.foldl (fun m nHash => thinned_cleanObject nHash) _ _)
    exact (htriggers.trans hclean).trans (.of_eq rfl)

variable (hash env) in
theorem processVote_of_not_passesOn {vote : CGovernanceVote} (h : m.passesOn hash vote = false) :
    (m.processVote hash env vote).2.1.mapObjects = m.mapObjects := by
  rw [processVote]
  dsimp only
  rw [passesOn, Bool.and_eq_false_iff] at h
  split_ifs with hinvalid
  · rfl
  · cases hst : m.mapObjects.lookup vote.nParentHash with
    | none => rfl
    | some st =>
      rw [hst] at h
      dsimp only
      rw [if_pos]
      rcases h with h | h
      · exact absurd h (by simpa using hinvalid)
      · rw [Option.any_some, Bool.not_eq_false'] at h
        exact h

variable (hash env) in
theorem processVote_of_passesOn {vote : CGovernanceVote} (h : m.passesOn hash vote = true) :
    ∃ st fRate, (m.rebuildVoteMaps env).mapObjects.lookup vote.nParentHash = some st ∧
      (m.processVote hash env vote).2.1.mapObjects =
        ((m.rebuildVoteMaps env).modifyObject vote.nParentHash fun _ =>
          (st.govobj.processVote hash env.toGovernanceEnv fRate vote).govobj).mapObjects := by
  rw [passesOn, Bool.and_eq_true, Bool.not_eq_true'] at h
  obtain ⟨hinvalid, hobject⟩ := h
  cases hst : m.mapObjects.lookup vote.nParentHash with
  | none =>
    rw [hst] at hobject
    exact absurd hobject (by simp)
  | some st =>
    have hsome : ((m.rebuildVoteMaps env).mapObjects.lookup vote.nParentHash).isSome = true := by
      rw [isSome_lookup_rebuildVoteMaps, hst]
      rfl
    obtain ⟨st', hst'⟩ := Option.isSome_iff_exists.mp hsome
    rw [hst, Option.any_some, Bool.not_eq_true'] at hobject
    refine ⟨st', (m.rebuildVoteMaps env).fRateChecksEnabled, hst', ?_⟩
    simp only [processVote, hinvalid, Bool.false_eq_true, if_false, hst, hobject, hst']
    split_ifs <;> rfl

theorem lookup_addGovernanceObject {govobj : CGovernanceObject H} {nHash : UInt256}
    {st' : StoredObject H}
    (h : (m.addGovernanceObject hash env govobj).2.2.mapObjects.lookup nHash = some st') :
    (∃ st, m.mapObjects.lookup nHash = some st ∧ ∀ i recVote,
      st'.govobj.mapCurrentMNVotes.lookup i = some recVote →
        st.govobj.mapCurrentMNVotes.lookup i = some recVote) ∨
      st'.govobj.mapCurrentMNVotes = govobj.mapCurrentMNVotes := by
  have hstore : ∀ {m' : CGovernanceManager H}, m.Thinned m' →
      (m'.storeObject hash govobj).mapObjects.lookup nHash = some st' →
      (∃ st, m.mapObjects.lookup nHash = some st ∧ ∀ i recVote,
        st'.govobj.mapCurrentMNVotes.lookup i = some recVote →
          st.govobj.mapCurrentMNVotes.lookup i = some recVote) ∨
        st'.govobj.mapCurrentMNVotes = govobj.mapCurrentMNVotes := by
    intro m' hm' hst'
    have hinsert : (m'.mapObjects.insert govobj.nHash
        ⟨m'.nextAddr, govobj.copy hash⟩).lookup nHash = some st' := hst'
    rcases eq_or_ne nHash govobj.nHash with rfl | hne
    · rw [AList.lookup_insert] at hinsert
      obtain rfl := Option.some.inj hinsert
      exact .inr rfl
    · rw [AList.lookup_insert_ne hne] at hinsert
      exact .inl (hm' nHash st' hinsert)
  rw [addGovernanceObject] at h
  split_ifs at h with hvalid hknown hwatchdog htime
  · exact .inl (Thinned.refl m nHash st' h)
  · exact .inl (Thinned.refl m nHash st' h)
  · exact .inl (Thinned.refl m nHash st' h)
  · have hthinned := thinned_updateCurrentWatchdog m env govobj
    rcases hw : m.updateCurrentWatchdog env govobj with ⟨fUpdated, m'⟩
    rw [hw] at h hthinned
    cases fUpdated with
    | false => exact .inl (hthinned nHash st' h)
    | true => exact hstore hthinned h
  · exact hstore (.refl m) h

end CGovernanceManager

/-! ### The index -/

namespace CMasternodeIndex

variable {index : CMasternodeIndex} {out : COutPoint}

/-- The outpoint has a number. -/
def Knows (index : CMasternodeIndex) (out : COutPoint) : Prop :=
  ∃ i vin, index.get i = some vin ∧ vin.prevout = out

theorem Knows.getMasternodeIndex (hn : index.Numbers) {vin : CTxIn}
    (h : index.Knows vin.prevout) : ∃ vin', index.get (index.getMasternodeIndex vin) = some vin' ∧
      vin'.prevout = vin.prevout := by
  obtain ⟨i, vin', hi, hout⟩ := h
  have hlookup := (hn.inverse vin.prevout i).mpr ⟨vin', hi, hout⟩
  have heq : index.getMasternodeIndex vin = i := by
    rw [CMasternodeIndex.getMasternodeIndex, hlookup]
    rfl
  exact ⟨vin', by rw [heq]; exact hi, hout⟩

theorem Knows.addMasternodeVIN (hn : index.Numbers) (h : index.Knows out) (vin : CTxIn) :
    (index.addMasternodeVIN vin).Knows out := by
  obtain ⟨i, vin', hi, hout⟩ := h
  exact ⟨i, vin', hn.get_addMasternodeVIN hi vin, hout⟩

theorem knows_addMasternodeVIN (hn : index.Numbers) (vin : CTxIn) :
    (index.addMasternodeVIN vin).Knows vin.prevout := by
  cases hlookup : index.mapIndex.lookup vin.prevout with
  | some i =>
    obtain ⟨vin', hi, hout⟩ := (hn.inverse vin.prevout i).mp hlookup
    exact Knows.addMasternodeVIN hn ⟨i, vin', hi, hout⟩ vin
  | none =>
    refine ⟨index.nSize, vin, ?_, rfl⟩
    rw [CMasternodeIndex.addMasternodeVIN, hlookup]
    exact AList.lookup_insert _

theorem foldl_addMasternodeVIN :
    ∀ (mns : List CMasternode) {index : CMasternodeIndex}, index.Numbers →
      (mns.foldl (fun index mn => index.addMasternodeVIN mn.vin) index).Numbers ∧
      (∀ out, index.Knows out →
        (mns.foldl (fun index mn => index.addMasternodeVIN mn.vin) index).Knows out) ∧
      ∀ mn ∈ mns, (mns.foldl (fun index mn => index.addMasternodeVIN mn.vin) index).Knows
        mn.vin.prevout
  | [], _, hn => ⟨hn, fun _ h => h, fun _ h => absurd h List.not_mem_nil⟩
  | mn :: mns, index, hn => by
    obtain ⟨hnumbers, hkept, hall⟩ := foldl_addMasternodeVIN mns (hn.addMasternodeVIN mn.vin)
    refine ⟨hnumbers, fun out h => hkept out (h.addMasternodeVIN hn mn.vin), fun mn' hmn' => ?_⟩
    rcases List.mem_cons.mp hmn' with rfl | hmem
    · exact hkept _ (knows_addMasternodeVIN hn _)
    · exact hall mn' hmem

theorem nSize_foldl_addMasternodeVIN : ∀ (mns : List CMasternode) (index : CMasternodeIndex),
    (mns.foldl (fun index mn => index.addMasternodeVIN mn.vin) index).nSize ≤
      index.nSize + mns.length
  | [], index => by simp
  | mn :: mns, index => by
    have hone : (index.addMasternodeVIN mn.vin).nSize ≤ index.nSize + 1 := by
      rw [CMasternodeIndex.addMasternodeVIN]
      split_ifs
      · exact Int.le_add_one (Int.le_refl _)
      · exact Int.le_refl _
    have htail := nSize_foldl_addMasternodeVIN mns (index.addMasternodeVIN mn.vin)
    rw [List.foldl_cons, List.length_cons]
    push_cast
    omega

end CMasternodeIndex

/-! ### The node -/

namespace VotingNode

variable {s s' : VotingNode H} {votes : List CGovernanceVote} {env : ManagerEnv}

omit [DecidableEq H] in
theorem has_env (vin : CTxIn) : (s.env env).toGovernanceEnv.has vin = s.man.lists vin.prevout := by
  rw [GovernanceEnv.has, CMasternodeMan.lists]
  show (Option.map _ (List.find? _ _)).isSome = _
  rw [Option.isSome_map, Bool.eq_iff_iff, List.find?_isSome, List.any_eq_true]

/-- What holds in every state. -/
structure Inv (votes : List CGovernanceVote) (s : VotingNode H) : Prop where
  attributed : s.Attributed votes
  numbers : s.man.indexMasternodes.Numbers
  numbersOld : s.man.indexMasternodesOld.Numbers
  listed : ∀ mn ∈ s.man.vMasternodes, s.man.indexMasternodes.Knows mn.vin.prevout

omit [DecidableEq H] in
theorem getInstance_eq_some {o : CGovernanceObject H} {i eSignal : ℤ}
    {voteInstance : vote_instance_t} : o.getInstance i eSignal = some voteInstance ↔
      ∃ recVote, o.mapCurrentMNVotes.lookup i = some recVote ∧
        recVote.lookup eSignal = some voteInstance := by
  rw [CGovernanceObject.getInstance, CGovernanceObject.getRec]
  cases o.mapCurrentMNVotes.lookup i with
  | none => simp
  | some recVote => simp

omit [DecidableEq H] in
theorem Attributed.thinned (h : s.Attributed votes)
    (hobjects : s.governance.Thinned s'.governance)
    (hgen : ∀ i vin, s.generation.get i = some vin →
      ∃ vin', s'.generation.get i = some vin' ∧ vin'.prevout = vin.prevout) :
    s'.Attributed votes := by
  rintro nHash o ⟨st', hst', rfl⟩ i eSignal voteInstance hinstance hvote
  obtain ⟨st, hst, hsub⟩ := hobjects nHash st' hst'
  obtain ⟨recVote, hrec, hsignal⟩ := getInstance_eq_some.mp hinstance
  obtain ⟨vin, hget, hcast⟩ := h nHash st.govobj ⟨st, hst, rfl⟩ i eSignal voteInstance
    (getInstance_eq_some.mpr ⟨recVote, hsub i recVote hrec, hsignal⟩) hvote
  obtain ⟨vin', hget', hout⟩ := hgen i vin hget
  exact ⟨vin', hget', hout ▸ hcast⟩

omit [DecidableEq H] in
theorem Inv.renumber_inj (h : s.Inv votes) {j : ℤ} (hj : 0 ≤ j) (i i' : ℤ)
    (hi : s.man.renumber i = some j) (hi' : s.man.renumber i' = some j) : i = i' := by
  obtain ⟨vin, hget, rfl⟩ := Option.map_eq_some_iff.mp hi
  obtain ⟨vin', hget', heq⟩ := Option.map_eq_some_iff.mp hi'
  obtain ⟨w, hw, hout⟩ := h.numbers.getMasternodeIndex_nonneg hj
  obtain ⟨w', hw', hout'⟩ := h.numbers.getMasternodeIndex_nonneg (heq ▸ hj)
  rw [heq, hw] at hw'
  obtain rfl := Option.some.inj hw'
  exact h.numbersOld.eq_of_prevout hget hget' (hout.symm.trans hout')

omit [DecidableEq H] in
theorem Inv.lookup_rebuildVoteMap (h : s.Inv votes) {o : CGovernanceObject H} {j : ℤ}
    {recVote : vote_rec_t} :
    (o.rebuildVoteMap s.man.renumber).mapCurrentMNVotes.lookup j = some recVote ↔
      0 ≤ j ∧ ∃ i, s.man.renumber i = some j ∧ o.mapCurrentMNVotes.lookup i = some recVote :=
  CGovernanceObject.lookup_rebuildVoteMap fun hj => h.renumber_inj hj

omit [DecidableEq H] in
theorem Inv.rebuildKeeps (h : s.Inv votes) (hpending : s.man.fIndexRebuilt = true)
    (o : CGovernanceObject H) : s.RebuildKeeps o := by
  have hgen : s.generation = s.man.indexMasternodesOld := if_pos hpending
  refine ⟨fun i vin hget hlisted => ?_, fun j recVote hrec => ?_⟩
  · obtain ⟨mn, hmn, hout⟩ := List.any_eq_true.mp hlisted
    have hknows := h.listed mn hmn
    rw [of_decide_eq_true hout] at hknows
    obtain ⟨vin', hget', -⟩ := hknows.getMasternodeIndex h.numbers
    have hrenumber : s.man.renumber i = some (s.man.indexMasternodes.getMasternodeIndex vin) := by
      rw [CMasternodeMan.renumber, ← hgen, hget]
      rfl
    have hj := (h.numbers.get_eq_some hget').2.1
    apply Option.ext
    intro recVote
    rw [h.lookup_rebuildVoteMap]
    constructor
    · rintro ⟨-, i', hi', hrec⟩
      rw [h.renumber_inj hj _ _ hi' hrenumber] at hrec
      exact hrec
    · exact fun hrec => ⟨hj, i, hrenumber, hrec⟩
  · obtain ⟨hj, i, hi, hold⟩ := h.lookup_rebuildVoteMap.mp hrec
    obtain ⟨vin, hget, rfl⟩ := Option.map_eq_some_iff.mp hi
    obtain ⟨vin', hget', hout⟩ := h.numbers.getMasternodeIndex_nonneg hj
    exact ⟨i, vin, vin', hgen ▸ hget, hget', hout.symm, hold⟩

theorem lookup_cleared {o : CGovernanceObject H} {i : ℤ} :
    (o.clearMasternodeVotes hash (s.env env).toGovernanceEnv).mapCurrentMNVotes.lookup i =
      if s.listsNumber s.man.indexMasternodes i then o.mapCurrentMNVotes.lookup i else none := by
  have hknown : ((s.env env).toGovernanceEnv.getMasternodeVin i).any (s.env env).toGovernanceEnv.has
      = s.listsNumber s.man.indexMasternodes i := by
    rw [listsNumber]
    show (s.man.indexMasternodes.get i).any _ = _
    congr 1
    funext vin
    exact has_env vin
  rw [CGovernanceObject.lookup_clearMasternodeVotes, hknown]

theorem clearsUnlisted {o : CGovernanceObject H}
    (hsafe : ∀ i ∈ o.mapCurrentMNVotes.keys,
      s.listsNumber s.generation i = s.listsNumber s.man.indexMasternodes i) :
    s.ClearsUnlisted hash env o := by
  intro i
  rw [lookup_cleared]
  by_cases hkey : i ∈ o.mapCurrentMNVotes.keys
  · rw [hsafe i hkey]
  · have hnone : o.mapCurrentMNVotes.lookup i = none :=
      AList.lookup_eq_none.mpr fun h => hkey (AList.mem_keys.mp h)
    simp [hnone]

/-! ### Events -/

omit [DecidableEq H] in
theorem generation_of_not_pending (h : s.man.fIndexRebuilt = false) :
    s.generation = s.man.indexMasternodes := if_neg (by simp [h])

omit [DecidableEq H] in
theorem Inv.add (h : s.Inv votes) (mn : CMasternode) :
    Inv votes { s with man := s.man.add mn } := by
  rw [CMasternodeMan.add]
  split_ifs
  · exact h
  · refine ⟨h.attributed.thinned (.refl _) fun i vin hget => ⟨vin, ?_, rfl⟩,
      h.numbers.addMasternodeVIN mn.vin, h.numbersOld, fun mn' hmn' => ?_⟩
    · rw [generation] at hget ⊢
      split_ifs at hget ⊢
      · exact hget
      · exact h.numbers.get_addMasternodeVIN hget mn.vin
    · rcases List.mem_append.mp hmn' with hmem | hmem
      · exact (h.listed mn' hmem).addMasternodeVIN h.numbers mn.vin
      · obtain rfl := List.mem_singleton.mp hmem
        exact CMasternodeIndex.knows_addMasternodeVIN h.numbers _

omit [DecidableEq H] in
theorem Inv.remove (h : s.Inv votes) (gone : COutPoint → Bool) :
    Inv votes { s with man := s.man.remove gone } :=
  ⟨h.attributed, h.numbers, h.numbersOld,
    fun mn hmn => h.listed mn (List.mem_of_mem_filter hmn)⟩

omit [DecidableEq H] in
theorem Inv.rebuildIndex (h : s.Inv votes) {env : ManEnv} (hsafe : s.Safe (.rebuildIndex env)) :
    Inv votes { s with man := s.man.checkAndRebuildMasternodeIndex env } := by
  rw [CMasternodeMan.checkAndRebuildMasternodeIndex]
  split_ifs with htime hlimit hsize
  · exact h
  · exact h
  · exact h
  · have hrebuilds : s.man.rebuilds env = true := by
      simp [CMasternodeMan.rebuilds, htime, hlimit, hsize]
    obtain ⟨hnumbers, -, hall⟩ :=
      CMasternodeIndex.foldl_addMasternodeVIN s.man.vMasternodes CMasternodeIndex.numbers_empty
    refine ⟨?_, hnumbers, h.numbers, hall⟩
    intro nHash o hobject i eSignal voteInstance hinstance hvote
    obtain ⟨vin, hget, hcast⟩ := h.attributed nHash o hobject i eSignal voteInstance hinstance hvote
    have hkey : i ∈ o.mapCurrentMNVotes.keys := by
      obtain ⟨recVote, hrec, -⟩ := getInstance_eq_some.mp hinstance
      rw [← AList.mem_keys, ← AList.lookup_isSome, hrec]
      rfl
    have hsame := hsafe hrebuilds nHash o hobject i hkey
    rw [hget] at hsame
    obtain ⟨vin', hget', hout⟩ := Option.map_eq_some_iff.mp hsame.symm
    exact ⟨vin', hget', hout ▸ hcast⟩

theorem Inv.addObject (h : s.Inv votes) (env : ManagerEnv) (nHash : UInt256)
    (nObjectType nTime : ℤ) : Inv votes { s with
      governance := (s.governance.addGovernanceObject hash env
        (.received nHash nObjectType nTime)).2.2 } := by
  refine ⟨?_, h.numbers, h.numbersOld, h.listed⟩
  rintro k o ⟨st', hst', rfl⟩ i eSignal voteInstance hinstance hvote
  rcases CGovernanceManager.lookup_addGovernanceObject hst' with ⟨st, hst, hsub⟩ | hnew
  · obtain ⟨recVote, hrec, hsignal⟩ := getInstance_eq_some.mp hinstance
    exact h.attributed k st.govobj ⟨st, hst, rfl⟩ i eSignal voteInstance
      (getInstance_eq_some.mpr ⟨recVote, hsub i recVote hrec, hsignal⟩) hvote
  · obtain ⟨recVote, hrec, -⟩ := getInstance_eq_some.mp hinstance
    rw [hnew] at hrec
    exact absurd hrec (by simp [CGovernanceObject.received])

omit [DecidableEq H] in
theorem Inv.rebuildVoteMaps (h : s.Inv votes) (hpending : s.man.fIndexRebuilt = true) :
    Inv votes ⟨s.man.clearOldMasternodeIndex, s.governance.rebuildVoteMaps (s.env env)⟩ := by
  have hrebuilt : (s.env env).fIndexRebuilt = some s.man.renumber := if_pos hpending
  refine ⟨?_, h.numbers, CMasternodeIndex.numbers_empty, h.listed⟩
  rintro nHash o ⟨st', hst', rfl⟩ j eSignal voteInstance hinstance hvote
  rw [CGovernanceManager.lookup_rebuildVoteMaps hrebuilt] at hst'
  obtain ⟨st, hst, rfl⟩ := Option.map_eq_some_iff.mp hst'
  obtain ⟨recVote, hrec, hsignal⟩ := getInstance_eq_some.mp hinstance
  obtain ⟨i, vin, vin', hget, hget', hout, hold⟩ :=
    (h.rebuildKeeps hpending st.govobj).same j recVote hrec
  obtain ⟨w, hw, hcast⟩ := h.attributed nHash st.govobj ⟨st, hst, rfl⟩ i eSignal voteInstance
    (getInstance_eq_some.mpr ⟨recVote, hold, hsignal⟩) hvote
  obtain rfl := Option.some.inj (hget.symm.trans hw)
  exact ⟨vin', hget', hout ▸ hcast⟩

theorem Inv.record (h : s.Inv votes) (hpending : s.man.fIndexRebuilt = false)
    {env : GovernanceEnv} (hindex : ∀ out, env.getMasternodeIndex out =
      s.man.indexMasternodes.getMasternodeIndex ⟨out, [], 0⟩) {vote : CGovernanceVote}
    (hvalid : env.isValid vote = true → vote ∈ votes) {st : StoredObject H} {fRate : Bool}
    (hst : s.governance.mapObjects.lookup vote.nParentHash = some st) {m : CGovernanceManager H}
    (hm : m.mapObjects = (s.governance.modifyObject vote.nParentHash fun _ =>
      (st.govobj.processVote hash env fRate vote).govobj).mapObjects) :
    Inv votes { s with governance := m } := by
  refine ⟨?_, h.numbers, h.numbersOld, h.listed⟩
  rintro nHash o ⟨st', hst', rfl⟩ i eSignal voteInstance hinstance hvote
  have hlookup : m.mapObjects.lookup nHash = some st' := hst'
  rw [hm, CGovernanceManager.lookup_modifyObject, hst] at hlookup
  split_ifs at hlookup with hk
  · obtain rfl := Option.some.inj hlookup
    rcases CGovernanceObject.getInstance_of_processVote hash hinstance with
      hold | hdefault | ⟨hi, heq, rfl, houtcome, htime, hv⟩
    · rw [hk]
      exact h.attributed _ st.govobj ⟨st, hst, rfl⟩ i eSignal voteInstance hold hvote
    · exact absurd hdefault hvote
    · rw [heq, hindex] at hi
      obtain ⟨vin, hget, hout⟩ := h.numbers.getMasternodeIndex_nonneg hi
      refine ⟨vin, ?_, vote, hvalid hv, hk.symm, hout.symm, rfl, houtcome, htime⟩
      have hgen : ({ s with governance := m } : VotingNode H).generation = s.man.indexMasternodes :=
        generation_of_not_pending hpending
      rw [hgen, heq, hindex]
      exact hget
  · exact h.attributed nHash st'.govobj ⟨st', hlookup, rfl⟩ i eSignal voteInstance hinstance hvote

theorem Inv.processVote (h : s.Inv votes) (env : ManagerEnv) (vote : CGovernanceVote)
    (hvalid : (s.env env).isValid vote = true → vote ∈ votes) :
    Inv votes (s.processVote hash env vote) := by
  cases hpasses : s.governance.passesOn hash vote with
  | false =>
    have hobjects := CGovernanceManager.processVote_of_not_passesOn hash (s.env env) hpasses
    rw [VotingNode.processVote, hpasses, Bool.and_false]
    exact ⟨h.attributed.thinned (.of_eq hobjects) fun _ vin hget => ⟨vin, hget, rfl⟩, h.numbers,
      h.numbersOld, h.listed⟩
  | true =>
    obtain ⟨st, fRate, hst, hm⟩ :=
      CGovernanceManager.processVote_of_passesOn hash (s.env env) hpasses
    rw [VotingNode.processVote, hpasses, Bool.and_true]
    cases hpending : s.man.fIndexRebuilt with
    | true => exact (h.rebuildVoteMaps hpending).record rfl (fun _ => rfl) hvalid hst hm
    | false =>
      have hsame : s.governance.rebuildVoteMaps (s.env env) = s.governance := by
        have hrebuilt : (s.env env).fIndexRebuilt = none := if_neg (by simp [hpending])
        rw [CGovernanceManager.rebuildVoteMaps, hrebuilt]
      rw [hsame] at hst hm
      exact h.record hpending (fun _ => rfl) hvalid hst hm

theorem Inv.updateCachesAndClean (h : s.Inv votes) (env : ManagerEnv) :
    Inv votes { s with governance := s.governance.updateCachesAndClean hash env } :=
  ⟨h.attributed.thinned CGovernanceManager.thinned_updateCachesAndClean
    fun _ vin hget => ⟨vin, hget, rfl⟩, h.numbers, h.numbersOld, h.listed⟩

theorem Inv.step (h : s.Inv votes) {e : VotingEvent} (hsafe : s.Safe e)
    (hvalid : ∀ vote ∈ validVotes hash s [e], vote ∈ votes) : Inv votes (s.step hash e) := by
  cases e with
  | add mn => exact h.add mn
  | remove gone => exact h.remove gone
  | rebuildIndex env => exact h.rebuildIndex hsafe
  | addObject env nHash nObjectType nTime => exact h.addObject (s.env env) nHash nObjectType nTime
  | updateCachesAndClean env => exact h.updateCachesAndClean (s.env env)
  | vote env vote =>
    refine h.processVote env vote fun hv => hvalid vote ?_
    simp [validVotes, hv]

theorem Inv.run : ∀ {es : List VotingEvent} {s : VotingNode H}, s.Inv votes →
    Runs.Admits Safe (VotingNode.step hash) s es → (∀ vote ∈ validVotes hash s es, vote ∈ votes) →
    Inv votes (es.foldl (VotingNode.step hash) s)
  | [], _, h, _, _ => h
  | e :: es, s, h, hsafe, hvalid => by
    rw [List.foldl_cons]
    refine Inv.run (h.step hsafe.1 fun vote hvote => hvalid vote ?_) hsafe.2
      fun vote hvote => hvalid vote (List.mem_append_right _ hvote)
    rcases List.mem_append.mp hvote with hmem | hmem
    · exact List.mem_append_left _ hmem
    · exact absurd hmem List.not_mem_nil

omit [DecidableEq H] in
theorem inv_init (votes : List CGovernanceVote) : Inv votes (init : VotingNode H) where
  attributed := by
    rintro nHash o ⟨st, hst, -⟩
    exact absurd hst (by simp [init, CGovernanceManager.init])
  numbers := CMasternodeIndex.numbers_empty
  numbersOld := CMasternodeIndex.numbers_empty
  listed := fun _ hmn => absurd hmn List.not_mem_nil

/-- **Votes survive** in every run of safe events, and a safe `UpdateCachesAndClean` clears
nothing but what is gone. -/
theorem votes_survive {es : List VotingEvent}
    (hsafe : Runs.Admits Safe (step hash) (init : VotingNode H) es) :
    VotesSurvive (es.foldl (step hash) (init : VotingNode H)) (validVotes hash init es) ∧
      ∀ env, Safe (es.foldl (step hash) (init : VotingNode H)) (.updateCachesAndClean env) →
        CleansUnlisted hash (es.foldl (step hash) (init : VotingNode H)) env := by
  have hend := (inv_init (H := H) (validVotes hash init es)).run hsafe fun _ hvote => hvote
  refine ⟨⟨hend.attributed, fun hpending _ o _ => hend.rebuildKeeps hpending o,
    hend.numbers, hend.numbersOld⟩, fun env hclean nHash hdirty o hobject => ?_⟩
  exact clearsUnlisted (hclean nHash hdirty o hobject)

/-! ### A rebuild of a large index -/

open CGovernanceObject (fundingVote received voteTuple)

def masternodeAt (k : ℕ) : CMasternode where
  vin := ⟨⟨1, k⟩, [], 0⟩
  addr := ⟨[], 0⟩
  pubKeyCollateralAddress := []
  pubKeyMasternode := []
  lastPing := .empty
  vchSig := []
  sigTime := 0
  nTimeLastChecked := 0
  nActiveState := .MASTERNODE_ENABLED
  nProtocolVersion := PROTOCOL_VERSION
  nPoSeBanScore := 0
  nPoSeBanHeight := 0

def additions (n : ℕ) : List VotingEvent := (List.range n).map fun k => .add (masternodeAt k)

/-- The state after that. -/
structure Filled (n : ℕ) (s : VotingNode H) : Prop where
  governance : s.governance = .init
  vMasternodes : s.man.vMasternodes = (List.range n).map masternodeAt
  numbers : s.man.indexMasternodes.Numbers
  nSize : s.man.indexMasternodes.nSize = n
  get : ∀ k < n, s.man.indexMasternodes.get k = some ⟨⟨1, k⟩, [], 0⟩
  pending : s.man.fIndexRebuilt = false
  time : s.man.nLastIndexRebuildTime = 0

variable (hash) in
theorem filled_additions (n : ℕ) :
    Filled n ((additions n).foldl (step hash) (init : VotingNode H)) := by
  induction n with
  | zero =>
    exact ⟨rfl, rfl, CMasternodeIndex.numbers_empty, rfl, fun k hk => absurd hk (Nat.not_lt_zero k),
      rfl, rfl⟩
  | succ n ih =>
    rw [additions, List.range_succ, List.map_append, List.foldl_append]
    rw [additions] at ih
    generalize ((List.range n).map fun k => VotingEvent.add (masternodeAt k)).foldl (step hash) init
      = s at ih ⊢
    have hnew : s.man.find (masternodeAt n).vin = none := by
      rw [CMasternodeMan.find_eq_none, ih.vMasternodes]
      intro mn hmn hout
      obtain ⟨k, hk, rfl⟩ := List.mem_map.mp hmn
      have hkn : k = n := congrArg COutPoint.n hout
      exact absurd (List.mem_range.mp hk) (by omega)
    have hfree : s.man.indexMasternodes.mapIndex.lookup ⟨1, n⟩ = none := by
      cases hlookup : s.man.indexMasternodes.mapIndex.lookup ⟨1, n⟩ with
      | none => rfl
      | some i =>
        obtain ⟨vin, hget, hout⟩ := (ih.numbers.inverse _ i).mp hlookup
        obtain ⟨-, h0, hlt⟩ := ih.numbers.get_eq_some hget
        rw [ih.nSize] at hlt
        have hget' := ih.get i.toNat (by omega)
        rw [Int.toNat_of_nonneg h0, hget] at hget'
        obtain rfl := Option.some.inj hget'
        have hkn : i.toNat = n := congrArg COutPoint.n hout
        exact absurd hlt (by omega)
    have hadd : s.man.add (masternodeAt n) =
        { s.man with
          vMasternodes := s.man.vMasternodes ++ [masternodeAt n]
          indexMasternodes := s.man.indexMasternodes.addMasternodeVIN ⟨⟨1, n⟩, [], 0⟩
          fMasternodesAdded := true } := by
      rw [CMasternodeMan.add, hnew]
      rfl
    have hindex : s.man.indexMasternodes.addMasternodeVIN ⟨⟨1, n⟩, [], 0⟩ =
        ⟨s.man.indexMasternodes.nSize + 1,
          s.man.indexMasternodes.mapIndex.insert ⟨1, n⟩ s.man.indexMasternodes.nSize,
          s.man.indexMasternodes.mapReverseIndex.insert s.man.indexMasternodes.nSize
            ⟨⟨1, n⟩, [], 0⟩⟩ := by
      rw [CMasternodeIndex.addMasternodeVIN, hfree]
      rfl
    have hnumbers := ih.numbers.addMasternodeVIN ⟨⟨1, n⟩, [], 0⟩
    have hkeep : ∀ k < n, (s.man.indexMasternodes.addMasternodeVIN ⟨⟨1, n⟩, [], 0⟩).get k =
        some ⟨⟨1, k⟩, [], 0⟩ :=
      fun k hk => ih.numbers.get_addMasternodeVIN (ih.get k hk) _
    show Filled (n + 1) ⟨s.man.add (masternodeAt n), s.governance⟩
    rw [hadd]
    refine ⟨ih.governance, ?_, hnumbers, ?_, fun k hk => ?_, ih.pending, ih.time⟩
    · simp [ih.vMasternodes, List.range_succ]
    · show (s.man.indexMasternodes.addMasternodeVIN ⟨⟨1, n⟩, [], 0⟩).nSize = _
      rw [hindex]
      simp [ih.nSize]
    · rcases Nat.lt_succ_iff_lt_or_eq.mp hk with hk | rfl
      · exact hkeep k hk
      · show (s.man.indexMasternodes.addMasternodeVIN ⟨⟨1, k⟩, [], 0⟩).get k = _
        rw [hindex]
        simp [CMasternodeIndex.get, ih.nSize]

variable {n : ℕ}

omit [DecidableEq H] in
theorem Filled.getMasternodeInfo (h : Filled n s) {k : ℕ} (hk : k < n) :
    (s.env env).getMasternodeInfo ⟨1, k⟩ = some [] := by
  show Option.map _ (List.find? _ _) = _
  cases hfind : s.man.vMasternodes.find? fun mn => mn.vin.prevout = ⟨1, k⟩ with
  | none =>
    have hmem : masternodeAt k ∈ s.man.vMasternodes := by
      rw [h.vMasternodes]
      exact List.mem_map_of_mem (List.mem_range.mpr hk)
    exact absurd (decide_eq_true rfl) (List.find?_eq_none.mp hfind _ hmem)
  | some mn =>
    have hmn := List.mem_of_find?_eq_some hfind
    rw [h.vMasternodes] at hmn
    obtain ⟨j, -, rfl⟩ := List.mem_map.mp hmn
    rfl

/-- The object 5 comes, and the vote of a masternode for it. -/
def votingEvents (n : ℕ) : List VotingEvent :=
  [.addObject openManagerEnv 5 1 0, .vote openManagerEnv (fundingVote n VOTE_OUTCOME_YES)]

variable (env) in
theorem HasObject.vote_other {nHash : UInt256} {o : CGovernanceObject H} {i eSignal : ℤ}
    (hobject : s.HasObject nHash o) (hpending : s.man.fIndexRebuilt = false)
    (vote : CGovernanceVote)
    (hne : i ≠ s.man.indexMasternodes.getMasternodeIndex ⟨vote.vinMasternode.prevout, [], 0⟩) :
    (s.processVote hash env vote).man = s.man ∧
      ∃ o', (s.processVote hash env vote).HasObject nHash o' ∧
        o'.getInstance i eSignal = o.getInstance i eSignal := by
  obtain ⟨st, hst, rfl⟩ := hobject
  refine ⟨by rw [VotingNode.processVote, hpending]; rfl, ?_⟩
  have hsame : s.governance.rebuildVoteMaps (s.env env) = s.governance := by
    simp [CGovernanceManager.rebuildVoteMaps, VotingNode.env, hpending]
  cases hpasses : s.governance.passesOn hash vote with
  | false =>
    have hobjects := CGovernanceManager.processVote_of_not_passesOn hash (s.env env) hpasses
    exact ⟨st.govobj, ⟨st, (congrArg (AList.lookup nHash) hobjects).trans hst, rfl⟩, rfl⟩
  | true =>
    obtain ⟨st', fRate, hst', hobjects⟩ :=
      CGovernanceManager.processVote_of_passesOn hash (s.env env) hpasses
    rw [hsame] at hst' hobjects
    have hlookup := congrArg (AList.lookup nHash) hobjects
    rw [CGovernanceManager.lookup_modifyObject] at hlookup
    split_ifs at hlookup with hk
    · rw [← hk, hst] at hst'
      obtain rfl := Option.some.inj hst'
      rw [← hk, hst] at hlookup
      exact ⟨_, ⟨_, hlookup, rfl⟩,
        CGovernanceObject.getInstance_processVote_ne hash _ fRate vote hne⟩
    · exact ⟨st.govobj, ⟨st, hlookup.trans hst, rfl⟩, rfl⟩

theorem Filled.vote_recorded {s : VotingNode (CTxIn × UInt256 × ℤ × ℤ × ℤ)}
    (h : Filled (n + 1) s) :
    ((votingEvents n).foldl (step voteTuple) s).man = s.man ∧
      ∃ o, ((votingEvents n).foldl (step voteTuple) s).HasObject 5 o ∧
        o.getInstance n VOTE_SIGNAL_FUNDING = some ⟨VOTE_OUTCOME_YES, 0, 1490000000⟩ := by
  let m := CGovernanceManager.storeObject voteTuple .init (.received 5 1 0)
  have hend : (votingEvents n).foldl (step voteTuple) s =
      processVote voteTuple ⟨s.man, m⟩ openManagerEnv (fundingVote n VOTE_OUTCOME_YES) := by
    show processVote voteTuple ⟨s.man, (s.governance.addGovernanceObject _ _ _).2.2⟩ _ _ = _
    rw [h.governance]
    rfl
  have hpasses : m.passesOn voteTuple (fundingVote n VOTE_OUTCOME_YES) = true := rfl
  have hinfo : (s.env openManagerEnv).getMasternodeInfo ⟨1, n⟩ = some [] :=
    h.getMasternodeInfo (Nat.lt_succ_self n)
  have hindex : (s.env openManagerEnv).getMasternodeIndex ⟨1, n⟩ = n :=
    (h.numbers.get_eq_some (h.get n (Nat.lt_succ_self n))).1
  have hvalid : (s.env openManagerEnv).isValid (fundingVote n VOTE_OUTCOME_YES) = true := by
    have hvoter : (s.env openManagerEnv).getMasternodeInfo
        (fundingVote n VOTE_OUTCOME_YES).vinMasternode.prevout = some [] := hinfo
    rw [GovernanceEnv.isValid, hvoter]
    rfl
  have hhas : (s.env openManagerEnv).toGovernanceEnv.has ⟨⟨1, n⟩, [], 0⟩ = true := by
    show ((s.env openManagerEnv).getMasternodeInfo ⟨1, n⟩).isSome = true
    rw [hinfo]
    rfl
  rw [hend]
  refine ⟨by rw [processVote, h.pending]; rfl, ?_⟩
  obtain ⟨st, fRate, hst, hobjects⟩ :=
    CGovernanceManager.processVote_of_passesOn voteTuple (s.env openManagerEnv) hpasses
  have hsame : m.rebuildVoteMaps (s.env openManagerEnv) = m := by
    simp [CGovernanceManager.rebuildVoteMaps, VotingNode.env, h.pending]
  rw [hsame] at hst hobjects
  have hst0 : st = ⟨0, (received 5 1 0).copy voteTuple⟩ :=
    (Option.some.inj ((AList.lookup_insert _).symm.trans hst)).symm
  subst hst0
  have hsupported : CGovernanceObject.Supported VOTE_SIGNAL_FUNDING := by decide
  have htime : (0 : ℤ) ≤ 1490000000 := by decide
  have hnow : GOVERNANCE_UPDATE_MIN ≤ openManagerEnv.getTime := by decide
  have hindex0 : 0 ≤ (s.env openManagerEnv).getMasternodeIndex ⟨1, n⟩ :=
    hindex ▸ Int.natCast_nonneg n
  rw [CGovernanceObject.processVote_first voteTuple _ fRate (fundingVote n VOTE_OUTCOME_YES) hindex0
    hsupported hvalid hhas rfl htime hnow] at hobjects
  let o := CGovernanceObject.record voteTuple ((received 5 1 0).copy voteTuple)
    ((s.env openManagerEnv).getMasternodeIndex ⟨1, n⟩) (fundingVote n VOTE_OUTCOME_YES)
  have hlookup : (processVote voteTuple ⟨s.man, m⟩ openManagerEnv
      (fundingVote n VOTE_OUTCOME_YES)).governance.mapObjects.lookup 5 = some ⟨0, o⟩ := by
    refine (congrArg (AList.lookup 5) hobjects).trans ?_
    show AList.lookup (fundingVote n VOTE_OUTCOME_YES).nParentHash _ = _
    rw [CGovernanceManager.lookup_modifyObject, if_pos rfl, hst]
    rfl
  refine ⟨o, ⟨⟨0, o⟩, hlookup, rfl⟩, ?_⟩
  show (CGovernanceObject.record voteTuple _ _ _).getInstance n VOTE_SIGNAL_FUNDING = _
  rw [hindex, CGovernanceObject.getInstance_record, if_pos ⟨rfl, rfl⟩]
  rfl

/-- Masternodes `0` to `n` are added, the last and the first one vote, and the first one
leaves. -/
def largeRun (n : ℕ) (env : ManEnv) : List VotingEvent :=
  additions (n + 1) ++ votingEvents n ++
    [.vote openManagerEnv (fundingVote 0 VOTE_OUTCOME_YES), .remove fun out => out = ⟨1, 0⟩,
      .rebuildIndex env]

omit [DecidableEq H] in
theorem safe_of_not_pending (h : s.man.fIndexRebuilt = false) (e : VotingEvent) : s.Safe e := by
  have hgen := generation_of_not_pending h
  cases e with
  | rebuildIndex env =>
    intro _ nHash o _ i _
    rw [hgen]
  | updateCachesAndClean env =>
    intro nHash _ o _ i _
    rw [hgen]
  | add mn => trivial
  | remove gone => trivial
  | addObject env nHash nObjectType nTime => trivial
  | vote env vote => trivial

omit [DecidableEq H] in
theorem Filled.lists_remove (h : Filled (n + 1) s) (hn : 0 < n) :
    (s.man.remove fun out => out = ⟨1, 0⟩).lists ⟨1, n⟩ = true := by
  apply List.any_eq_true.mpr
  refine ⟨masternodeAt n, List.mem_filter.mpr ⟨?_, ?_⟩, decide_eq_true rfl⟩
  · rw [h.vMasternodes]
    exact List.mem_map_of_mem (List.mem_range.mpr (Nat.lt_succ_self n))
  · have hne : n ≠ 0 := Nat.pos_iff_ne_zero.mp hn
    simp [masternodeAt, hne]

omit [DecidableEq H] in
theorem Filled.size_remove (h : Filled (n + 1) s) :
    (s.man.remove fun out => out = ⟨1, 0⟩).size ≤ n := by
  show (List.filter _ s.man.vMasternodes).length ≤ n
  have hlt : (s.man.vMasternodes.filter fun mn => !decide (mn.vin.prevout = ⟨1, 0⟩)).length <
      s.man.vMasternodes.length := by
    apply List.length_filter_lt_length_iff_exists.mpr
    refine ⟨masternodeAt 0, ?_, by simp [masternodeAt]⟩
    rw [h.vMasternodes]
    exact List.mem_map_of_mem (List.mem_range.mpr (Nat.succ_pos n))
  rw [h.vMasternodes, List.length_map, List.length_range] at hlt
  rw [h.vMasternodes]
  exact Nat.le_of_lt_succ hlt

theorem cleared_of_largeRun (hn : MAX_EXPECTED_INDEX_SIZE ≤ n) {env : ManEnv}
    (htime : MIN_INDEX_REBUILD_TIME ≤ env.getTime) :
    ¬ CleansUnlisted voteTuple ((largeRun n env).foldl (step voteTuple) init)
      { openManagerEnv with vecDirtyHashes := [5] } := by
  have hfilled := filled_additions voteTuple (n + 1)
  rw [largeRun, List.foldl_append, List.foldl_append]
  generalize (additions (n + 1)).foldl (step voteTuple) init = s at hfilled ⊢
  have hpos : 0 < n := by
    simp only [MAX_EXPECTED_INDEX_SIZE] at hn
    omega
  obtain ⟨hman, o₀, hobject₀, hrecord₀⟩ := hfilled.vote_recorded
  generalize (votingEvents n).foldl (step voteTuple) s = s₀ at hman hobject₀ ⊢
  have hother : (n : ℤ) ≠ s₀.man.indexMasternodes.getMasternodeIndex ⟨⟨1, 0⟩, [], 0⟩ := by
    rw [hman, (hfilled.numbers.get_eq_some (hfilled.get 0 (Nat.succ_pos n))).1]
    omega
  obtain ⟨hman₁, o, hobject, hinstance⟩ := hobject₀.vote_other openManagerEnv
    (hman ▸ hfilled.pending) (fundingVote 0 VOTE_OUTCOME_YES) hother
  have hrecord := hinstance.trans hrecord₀
  show ¬ CleansUnlisted _ (step voteTuple (step voteTuple (s₀.processVote voteTuple _ _) _)
    (.rebuildIndex env)) _
  generalize s₀.processVote voteTuple openManagerEnv (fundingVote 0 VOTE_OUTCOME_YES) = s₁
    at hman₁ hobject ⊢
  rw [hman] at hman₁
  have hman₂ : (step voteTuple s₁ (.remove fun out => out = ⟨1, 0⟩)).man =
      s.man.remove fun out => out = ⟨1, 0⟩ := by
    rw [← hman₁]
    rfl
  have hobject₂ : (step voteTuple s₁ (.remove fun out => out = ⟨1, 0⟩)).HasObject 5 o := hobject
  generalize step voteTuple s₁ (.remove fun out => out = ⟨1, 0⟩) = s₂ at hman₂ hobject₂ ⊢
  have hindex : s₂.man.indexMasternodes = s.man.indexMasternodes := by rw [hman₂]; rfl
  have hlast : s₂.man.nLastIndexRebuildTime = 0 := by rw [hman₂]; exact hfilled.time
  have hsize : s₂.man.size ≤ n := by rw [hman₂]; exact hfilled.size_remove
  have hlisted : s₂.man.lists ⟨1, n⟩ = true := by
    rw [hman₂]
    exact hfilled.lists_remove hpos
  -- the index is rebuilt from a list without the first masternode
  have hrebuild : (step voteTuple s₂ (.rebuildIndex env)).man =
      { s₂.man with
        indexMasternodesOld := s.man.indexMasternodes
        indexMasternodes :=
          s₂.man.vMasternodes.foldl (fun index mn => index.addMasternodeVIN mn.vin) .empty
        fIndexRebuilt := true
        nLastIndexRebuildTime := env.getTime } := by
    show s₂.man.checkAndRebuildMasternodeIndex env = _
    have hlarge : s.man.indexMasternodes.nSize = n + 1 := hfilled.nSize
    rw [CMasternodeMan.checkAndRebuildMasternodeIndex, if_neg, if_neg, if_neg, hindex]
    · rw [hindex, hlarge]
      omega
    · rw [hindex, hlarge]
      omega
    · rw [hlast]
      omega
  have hgone : (s₂.man.vMasternodes.foldl (fun index mn => index.addMasternodeVIN mn.vin)
      CMasternodeIndex.empty).get n = none := by
    obtain ⟨hnumbers, -, -⟩ :=
      CMasternodeIndex.foldl_addMasternodeVIN s₂.man.vMasternodes CMasternodeIndex.numbers_empty
    have hle := CMasternodeIndex.nSize_foldl_addMasternodeVIN s₂.man.vMasternodes .empty
    have hlength : s₂.man.vMasternodes.length ≤ n := hsize
    rw [← Option.not_isSome_iff_eq_none, hnumbers.range]
    have hzero : CMasternodeIndex.empty.nSize = 0 := rfl
    omega
  have hnow : (step voteTuple s₂ (.rebuildIndex env)).listsNumber
      (step voteTuple s₂ (.rebuildIndex env)).man.indexMasternodes n = false := by
    rw [listsNumber, hrebuild, hgone]
    rfl
  have hthen : (step voteTuple s₂ (.rebuildIndex env)).listsNumber
      (step voteTuple s₂ (.rebuildIndex env)).generation n = true := by
    rw [listsNumber, generation, hrebuild, if_pos rfl, hfilled.get n (Nat.lt_succ_self n)]
    exact hlisted
  obtain ⟨recVote, hrec, -⟩ := getInstance_eq_some.mp hrecord
  intro hclean
  have hcleared := hclean 5 (List.mem_singleton_self 5) o hobject₂ n
  rw [lookup_cleared, hnow, hthen, hrec] at hcleared
  exact absurd hcleared (by simp)

theorem admits_largeRun (n : ℕ) (env : ManEnv) :
    Runs.Admits Safe (step voteTuple) init (largeRun n env) := by
  have hfilled := filled_additions voteTuple (n + 1)
  rw [largeRun, List.append_assoc, Runs.admits_append]
  constructor
  · apply Runs.admits_of_forall
    intro e he s
    obtain ⟨k, -, rfl⟩ := List.mem_map.mp he
    trivial
  · generalize (additions (n + 1)).foldl (step voteTuple) init = s at hfilled ⊢
    obtain ⟨hman, -⟩ := hfilled.vote_recorded
    refine ⟨trivial, trivial, trivial, trivial, safe_of_not_pending ?_ _, trivial⟩
    show (processVote voteTuple ((votingEvents n).foldl (step voteTuple) s) openManagerEnv
      (fundingVote 0 VOTE_OUTCOME_YES)).man.fIndexRebuilt = false
    rw [processVote, hman, hfilled.pending]
    exact hfilled.pending

theorem votes_survive_largeRun :
    VotesSurvive ((largeRun 30000 twoOwnersEnv).foldl (step voteTuple) init)
      (validVotes voteTuple init (largeRun 30000 twoOwnersEnv)) ∧
    ∀ env, Safe ((largeRun 30000 twoOwnersEnv).foldl (step voteTuple) init)
        (.updateCachesAndClean env) →
      CleansUnlisted voteTuple ((largeRun 30000 twoOwnersEnv).foldl (step voteTuple) init) env := by
  -- the events are not to be computed
  generalize 30000 = n
  exact votes_survive (admits_largeRun n twoOwnersEnv)

/-- The limit of the index is passed, and the vote of the masternode 30000 is lost. -/
theorem votes_cleared : ¬ CleansUnlisted voteTuple
    ((largeRun 30000 twoOwnersEnv).foldl (step voteTuple) init)
    { openManagerEnv with vecDirtyHashes := [5] } :=
  cleared_of_largeRun (by decide) (by decide)

end VotingNode

end Stonecoin
