/-
Votes that wait in a cache: at the manager for their object, at an object for their
masternode.

Both caches tell votes apart by `operator<`, which never holds, so of the votes with one key
only the first is kept.  The calls carry their environments: clock and masternode index may
change from one to the next.

  * `parked_votes_apart_iff`: what this says of the comparison and of the two caches.
-/
import Stonecoin.GovernanceManager
import Stonecoin.GovernanceTally

namespace Stonecoin

open CGovernanceObject (openEnv fundingVote voteTuple object5)

variable {K : Type} [DecidableEq K]

/-! ### Comparison -/

/-- One of three holds and the other two do not. -/
def ExactlyOne (p q r : Prop) : Prop := (p ∧ ¬ q ∧ ¬ r) ∨ (¬ p ∧ q ∧ ¬ r) ∨ (¬ p ∧ ¬ q ∧ r)

namespace CGovernanceVote

variable {a b : CGovernanceVote}

theorem eq_iff :
    a.eq b = true ↔ a.vinMasternode = b.vinMasternode ∧ a.nParentHash = b.nParentHash ∧
      a.nVoteOutcome = b.nVoteOutcome ∧ a.nVoteSignal = b.nVoteSignal ∧ a.nTime = b.nTime := by
  simp [eq]

theorem eq_refl (a : CGovernanceVote) : a.eq a = true := eq_iff.mpr ⟨rfl, rfl, rfl, rfl, rfl⟩

theorem eq_symm (h : a.eq b = true) : b.eq a = true := by
  obtain ⟨h1, h2, h3, h4, h5⟩ := eq_iff.mp h
  exact eq_iff.mpr ⟨h1.symm, h2.symm, h3.symm, h4.symm, h5.symm⟩

theorem eq_trans {c : CGovernanceVote} (h : a.eq b = true) (h' : b.eq c = true) :
    a.eq c = true := by
  obtain ⟨h1, h2, h3, h4, h5⟩ := eq_iff.mp h
  obtain ⟨h1', h2', h3', h4', h5'⟩ := eq_iff.mp h'
  exact eq_iff.mpr ⟨h1.trans h1', h2.trans h2', h3.trans h3', h4.trans h4', h5.trans h5'⟩

theorem getHash_eq {H : Type} (hash : CTxIn → UInt256 → ℤ → ℤ → ℤ → H)
    (h : a.eq b = true) : a.getHash hash = b.getHash hash := by
  obtain ⟨h1, h2, h3, h4, h5⟩ := eq_iff.mp h
  rw [getHash, getHash, h1, h2, h3, h4, h5]

theorem exactlyOne_iff (a b : CGovernanceVote) :
    ExactlyOne (a.lt b = true) (b.lt a = true) (a.eq b = true) ↔ a.eq b = true := by
  simp [ExactlyOne, lt_eq_false]

end CGovernanceVote

theorem voteTimeLt_eq_false (p1 p2 : CGovernanceVote × ℤ) : voteTimeLt p1 p2 = false :=
  CGovernanceVote.lt_eq_false _ _

/-! ### A cache of votes -/

def Parked (c : CacheMultiMap K (CGovernanceVote × ℤ)) (key : K) (vote : CGovernanceVote) : Prop :=
  ∃ p ∈ c.getAll key, p.1.eq vote = true

/-- The cache after some votes with their expiration times. -/
def parkAll (c : CacheMultiMap K (CGovernanceVote × ℤ)) (items : List (K × CGovernanceVote × ℤ)) :
    CacheMultiMap K (CGovernanceVote × ℤ) :=
  items.foldl (fun c item => (c.insert voteTimeLt item.1 item.2).2) c

variable {nMaxSize : ℕ}

theorem parked_iff_first {items : List (K × CGovernanceVote × ℤ)}
    (hroom : nMaxSize = 0 ∨ items.length < nMaxSize) {key : K} {vote : CGovernanceVote} :
    Parked (parkAll (.of nMaxSize) items) key vote ↔
      ∃ item, items.find? (·.1 = key) = some item ∧ item.2.1.eq vote = true := by
  have hget : (parkAll (.of nMaxSize) items).getAll key =
      ((items.find? (·.1 = key)).map Prod.snd).toList := by
    unfold parkAll
    rw [CacheMultiMap.getAll_foldl_insert voteTimeLt_eq_false key
      (hroom.imp_right fun h => by show 0 + items.length < nMaxSize; omega)]
    exact if_pos rfl
  unfold Parked
  rw [hget]
  cases items.find? (·.1 = key) with
  | none => simp
  | some item => simp

theorem parked_iff {items : List (K × CGovernanceVote × ℤ)}
    (hroom : nMaxSize = 0 ∨ items.length < nMaxSize) :
    (∀ x ∈ items, Parked (parkAll (.of nMaxSize) items) x.1 x.2.1) ↔
      ∀ x ∈ items, ∀ y ∈ items, x.1 = y.1 → x.2.1.eq y.2.1 = true := by
  refine ⟨fun h x hx y hy hkey => ?_, fun h x hx => ?_⟩
  · obtain ⟨item, hitem, hxeq⟩ := (parked_iff_first hroom).mp (h x hx)
    obtain ⟨item', hitem', hyeq⟩ := (parked_iff_first hroom).mp (h y hy)
    rw [← hkey, hitem] at hitem'
    obtain rfl := Option.some.inj hitem'
    exact CGovernanceVote.eq_trans (CGovernanceVote.eq_symm hxeq) hyeq
  · rw [parked_iff_first hroom]
    cases hfind : items.find? (·.1 = x.1) with
    | none => exact absurd (List.find?_eq_none.mp hfind x hx) (by simp)
    | some item =>
      have hkey : item.1 = x.1 := by simpa using List.find?_some hfind
      exact ⟨item, rfl, h item (List.mem_of_find?_eq_some hfind) x hx hkey⟩

variable {H : Type} [DecidableEq H] (hash : CTxIn → UInt256 → ℤ → ℤ → ℤ → H)

/-! ### At the manager -/

namespace CGovernanceManager

def processVotes (m : CGovernanceManager H) (calls : List (ManagerEnv × CGovernanceVote)) :
    CGovernanceManager H :=
  calls.foldl (fun m call => (m.processVote hash call.1 call.2).2.1) m

/-- What such a call puts into the cache. -/
def waiting (call : ManagerEnv × CGovernanceVote) : UInt256 × CGovernanceVote × ℤ :=
  (call.2.nParentHash, call.2, call.1.getAdjustedTime + GOVERNANCE_ORPHAN_EXPIRATION_TIME)

theorem processVote_unknown (env : ManagerEnv) {m : CGovernanceManager H} {vote : CGovernanceVote}
    (hparent : m.mapObjects.lookup vote.nParentHash = none) :
    (m.processVote hash env vote).2.1 =
      if m.mapInvalidVotes.hasKey (vote.getHash hash) then m else m.parkVote env vote := by
  unfold processVote
  rw [hparent]
  cases hinv : m.mapInvalidVotes.hasKey (vote.getHash hash) with
  | true => simp [hinv]
  | false => simp [hinv]

theorem processVotes_unknown : ∀ {calls : List (ManagerEnv × CGovernanceVote)}
    {m : CGovernanceManager H}, (∀ call ∈ calls, m.mapObjects.lookup call.2.nParentHash = none) →
    (processVotes hash m calls).mapOrphanVotes = parkAll m.mapOrphanVotes
      ((calls.filter fun call => !m.mapInvalidVotes.hasKey (call.2.getHash hash)).map waiting)
  | [], _, _ => rfl
  | call :: calls, m, hparent => by
    have hhead := processVote_unknown hash call.1 (hparent call List.mem_cons_self)
    have htail := fun c hc => hparent c (List.mem_cons_of_mem _ hc)
    show (processVotes hash (m.processVote hash call.1 call.2).2.1 calls).mapOrphanVotes = _
    rw [hhead]
    cases hinv : m.mapInvalidVotes.hasKey (call.2.getHash hash) with
    | true =>
      rw [if_pos rfl, processVotes_unknown htail, List.filter_cons_of_neg (by simp [hinv])]
    | false =>
      rw [if_neg (by decide), List.filter_cons_of_pos (by simp [hinv])]
      exact processVotes_unknown (m := m.parkVote call.1 call.2) htail

theorem processVotes_parked_iff {m : CGovernanceManager H}
    (hm : m.mapOrphanVotes = .of nMaxSize) {calls : List (ManagerEnv × CGovernanceVote)}
    (hroom : nMaxSize = 0 ∨ calls.length < nMaxSize)
    (hparent : ∀ call ∈ calls, m.mapObjects.lookup call.2.nParentHash = none) :
    (∀ call ∈ calls,
        Parked (processVotes hash m calls).mapOrphanVotes call.2.nParentHash call.2) ↔
      (∀ call ∈ calls, m.mapInvalidVotes.hasKey (call.2.getHash hash) = false) ∧
        ∀ x ∈ calls, ∀ y ∈ calls, x.2.nParentHash = y.2.nParentHash → x.2.eq y.2 = true := by
  rw [processVotes_unknown hash hparent, hm]
  have hlen : nMaxSize = 0 ∨ ((calls.filter fun call =>
      !m.mapInvalidVotes.hasKey (call.2.getHash hash)).map waiting).length < nMaxSize := by
    rw [List.length_map]
    exact hroom.imp_right fun h => (List.length_filter_le _ _).trans_lt h
  have hiff := parked_iff hlen
  refine ⟨fun h => ?_, fun ⟨hvalid, heq⟩ => ?_⟩
  · have hvalid : ∀ call ∈ calls, m.mapInvalidVotes.hasKey (call.2.getHash hash) = false := by
      -- what waits in the place of an invalid vote has its hash
      intro call hcall
      obtain ⟨item, hitem, heq⟩ := (parked_iff_first hlen).mp (h call hcall)
      obtain ⟨call', hcall', rfl⟩ := List.mem_map.mp (List.mem_of_find?_eq_some hitem)
      rw [← CGovernanceVote.getHash_eq hash heq]
      show m.mapInvalidVotes.hasKey (call'.2.getHash hash) = false
      simpa using (List.mem_filter.mp hcall').2
    have hfilter : (calls.filter fun call =>
        !m.mapInvalidVotes.hasKey (call.2.getHash hash)) = calls :=
      List.filter_eq_self.mpr fun call hcall => by simp [hvalid call hcall]
    rw [hfilter] at h hiff
    simp only [List.forall_mem_map] at hiff
    exact ⟨hvalid, hiff.mp h⟩
  · have hfilter : (calls.filter fun call =>
        !m.mapInvalidVotes.hasKey (call.2.getHash hash)) = calls :=
      List.filter_eq_self.mpr fun call hcall => by simp [hvalid call hcall]
    rw [hfilter] at hiff ⊢
    simp only [List.forall_mem_map] at hiff
    exact hiff.mpr heq

end CGovernanceManager

/-! ### At an object -/

namespace CGovernanceObject

/-- Calls of `ProcessVote`, with or without the rate check. -/
def processVotes (o : CGovernanceObject H)
    (calls : List (GovernanceEnv × Bool × CGovernanceVote)) : CGovernanceObject H :=
  calls.foldl (fun o call => (o.processVote hash call.1 call.2.1 call.2.2).govobj) o

/-- What a call with an unknown masternode puts into the cache. -/
def waiting (call : GovernanceEnv × Bool × CGovernanceVote) : COutPoint × CGovernanceVote × ℤ :=
  (call.2.2.vinMasternode.prevout, call.2.2,
    call.1.getAdjustedTime + GOVERNANCE_ORPHAN_EXPIRATION_TIME)

theorem processVotes_unknown : ∀ {calls : List (GovernanceEnv × Bool × CGovernanceVote)}
    {o : CGovernanceObject H},
    (∀ call ∈ calls, call.1.getMasternodeIndex call.2.2.vinMasternode.prevout < 0) →
    (processVotes hash o calls).mapOrphanVotes = parkAll o.mapOrphanVotes (calls.map waiting)
  | [], _, _ => rfl
  | call :: calls, o, hunknown => by
    have hhead : (o.processVote hash call.1 call.2.1 call.2.2).govobj.mapOrphanVotes =
        (o.mapOrphanVotes.insert voteTimeLt (waiting call).1 (waiting call).2).2 := by
      unfold processVote
      rw [if_pos (hunknown call List.mem_cons_self)]
      rfl
    show (processVotes hash (o.processVote hash call.1 call.2.1 call.2.2).govobj
      calls).mapOrphanVotes = _
    rw [processVotes_unknown fun c hc => hunknown c (List.mem_cons_of_mem _ hc), hhead]
    rfl

theorem processVotes_parked_iff {o : CGovernanceObject H}
    (ho : o.mapOrphanVotes = .of nMaxSize)
    {calls : List (GovernanceEnv × Bool × CGovernanceVote)}
    (hroom : nMaxSize = 0 ∨ calls.length < nMaxSize)
    (hunknown : ∀ call ∈ calls,
      call.1.getMasternodeIndex call.2.2.vinMasternode.prevout < 0) :
    (∀ call ∈ calls, Parked (processVotes hash o calls).mapOrphanVotes
        call.2.2.vinMasternode.prevout call.2.2) ↔
      ∀ x ∈ calls, ∀ y ∈ calls,
        x.2.2.vinMasternode.prevout = y.2.2.vinMasternode.prevout → x.2.2.eq y.2.2 = true := by
  rw [processVotes_unknown hash hunknown, ho]
  have hroom' : nMaxSize = 0 ∨ (calls.map waiting).length < nMaxSize := by
    rwa [List.length_map]
  have hiff := parked_iff hroom'
  simp only [List.forall_mem_map] at hiff
  exact hiff

end CGovernanceObject

/-! ### What the comparison keeps apart -/

/-- **Parked votes are kept apart when they do not differ.**  Exactly one of `<`, `>` and `==`
holds of equal votes only; `<` is transitive, as it never holds; and the votes of calls with
unknown objects, or with unknown masternodes, all wait afterwards exactly when those under one
key are equal, invalid ones apart. -/
theorem parked_votes_apart_iff :
    (∀ a b : CGovernanceVote,
      ExactlyOne (a.lt b = true) (b.lt a = true) (a.eq b = true) ↔ a.eq b = true) ∧
    (∀ a b c : CGovernanceVote, a.lt b = true → b.lt c = true → a.lt c = true) ∧
    (∀ (m : CGovernanceManager H) (nMaxSize : ℕ) (calls : List (ManagerEnv × CGovernanceVote)),
      m.mapOrphanVotes = .of nMaxSize → (nMaxSize = 0 ∨ calls.length < nMaxSize) →
      (∀ call ∈ calls, m.mapObjects.lookup call.2.nParentHash = none) →
      ((∀ call ∈ calls, Parked (m.processVotes hash calls).mapOrphanVotes
          call.2.nParentHash call.2) ↔
        (∀ call ∈ calls, m.mapInvalidVotes.hasKey (call.2.getHash hash) = false) ∧
          ∀ x ∈ calls, ∀ y ∈ calls, x.2.nParentHash = y.2.nParentHash → x.2.eq y.2 = true)) ∧
    (∀ (o : CGovernanceObject H) (nMaxSize : ℕ)
      (calls : List (GovernanceEnv × Bool × CGovernanceVote)),
      o.mapOrphanVotes = .of nMaxSize → (nMaxSize = 0 ∨ calls.length < nMaxSize) →
      (∀ call ∈ calls, call.1.getMasternodeIndex call.2.2.vinMasternode.prevout < 0) →
      ((∀ call ∈ calls, Parked (o.processVotes hash calls).mapOrphanVotes
          call.2.2.vinMasternode.prevout call.2.2) ↔
        ∀ x ∈ calls, ∀ y ∈ calls,
          x.2.2.vinMasternode.prevout = y.2.2.vinMasternode.prevout →
            x.2.2.eq y.2.2 = true)) := by
  refine ⟨CGovernanceVote.exactlyOne_iff, ?_, ?_, ?_⟩
  · intro a b c hab _
    rw [CGovernanceVote.lt_eq_false] at hab
    exact absurd hab (by decide)
  · intro m nMaxSize calls hm hroom hparent
    exact CGovernanceManager.processVotes_parked_iff hash hm hroom hparent
  · intro o nMaxSize calls ho hroom hunknown
    exact CGovernanceObject.processVotes_parked_iff hash ho hroom hunknown

/-- A synced node with an open environment, that finds every object valid. -/
def openManagerEnv : ManagerEnv where
  toGovernanceEnv := openEnv
  fLiteMode := false
  isBlockchainSynced := true
  isMasternodeListSynced := true
  nVersion := MIN_GOVERNANCE_PEER_PROTO_VERSION
  fIndexRebuilt := none
  isValidLocally := fun _ => (true, false)
  masternodeRateCheck := fun _ => (true, false)
  masternodeRateCheckForced := fun _ => true
  vecDirtyHashes := []
  cleanAndRemove := fun _ => false

/-- The same node before it knows any masternode. -/
def GovernanceEnv.withoutMasternodes (env : GovernanceEnv) : GovernanceEnv :=
  { env with getMasternodeIndex := fun _ => -1 }

/-- The first vote for an unknown object waits, however often it comes. -/
theorem parked_votes_apart_iff_twice :
    (∀ call ∈ [(openManagerEnv, fundingVote 0 VOTE_OUTCOME_YES),
        (openManagerEnv, fundingVote 0 VOTE_OUTCOME_YES)],
      Parked (CGovernanceManager.processVotes voteTuple .init
        [(openManagerEnv, fundingVote 0 VOTE_OUTCOME_YES),
          (openManagerEnv, fundingVote 0 VOTE_OUTCOME_YES)]).mapOrphanVotes
        call.2.nParentHash call.2) ∧
    (∀ call ∈ [(openEnv.withoutMasternodes, false, fundingVote 0 VOTE_OUTCOME_YES)],
      Parked (object5.processVotes voteTuple
        [(openEnv.withoutMasternodes, false, fundingVote 0 VOTE_OUTCOME_YES)]).mapOrphanVotes
        call.2.2.vinMasternode.prevout call.2.2) := by
  obtain ⟨-, -, hmanager, hobject⟩ := parked_votes_apart_iff voteTuple
  constructor
  · apply (hmanager .init MAX_CACHE_SIZE _ rfl (by decide) (fun _ _ => rfl)).mpr
    refine ⟨fun _ _ => rfl, ?_⟩
    intro x hx y hy _
    obtain rfl : x = _ := by simpa using hx
    obtain rfl : y = _ := by simpa using hy
    exact CGovernanceVote.eq_refl _
  · apply (hobject object5 0 _ rfl (.inl rfl) (by decide)).mpr
    intro x hx y hy _
    obtain rfl := List.mem_singleton.mp hx
    obtain rfl := List.mem_singleton.mp hy
    exact CGovernanceVote.eq_refl _

/-- Of the votes of two masternodes that come within a second one is lost. -/
theorem parked_votes_of_two_masternodes :
    ¬ ExactlyOne ((fundingVote 0 VOTE_OUTCOME_YES).lt (fundingVote 1 VOTE_OUTCOME_YES) = true)
        ((fundingVote 1 VOTE_OUTCOME_YES).lt (fundingVote 0 VOTE_OUTCOME_YES) = true)
        ((fundingVote 0 VOTE_OUTCOME_YES).eq (fundingVote 1 VOTE_OUTCOME_YES) = true) ∧
      Parked (CGovernanceManager.processVotes voteTuple .init
        [(openManagerEnv, fundingVote 0 VOTE_OUTCOME_YES),
          (openManagerEnv, fundingVote 1 VOTE_OUTCOME_YES)]).mapOrphanVotes 5
        (fundingVote 0 VOTE_OUTCOME_YES) ∧
      ¬ Parked (CGovernanceManager.processVotes voteTuple .init
        [(openManagerEnv, fundingVote 0 VOTE_OUTCOME_YES),
          (openManagerEnv, fundingVote 1 VOTE_OUTCOME_YES)]).mapOrphanVotes 5
        (fundingVote 1 VOTE_OUTCOME_YES) := by
  refine ⟨?_, ?_, ?_⟩
  · rw [CGovernanceVote.exactlyOne_iff]
    decide
  · exact ⟨(fundingVote 0 VOTE_OUTCOME_YES, 1500000600), by decide +kernel, by decide⟩
  · rintro ⟨p, hp, heq⟩
    have hall : ((CGovernanceManager.processVotes voteTuple .init
        [(openManagerEnv, fundingVote 0 VOTE_OUTCOME_YES),
          (openManagerEnv, fundingVote 1 VOTE_OUTCOME_YES)]).mapOrphanVotes.getAll 5).any
        (fun p => p.1.eq (fundingVote 1 VOTE_OUTCOME_YES)) = false := by
      decide +kernel
    exact absurd heq (by simpa using List.any_eq_false.mp hall p hp)

end Stonecoin
