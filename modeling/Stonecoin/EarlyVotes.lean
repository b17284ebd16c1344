/-
Governance votes that arrive before their object.

`AddGovernanceObject` stores a copy of the object that has arrived, and `CheckOrphanVotes`
replays the parked votes into the object itself, which is then given up; the vote leaves the
cache all the same.  So a stored object holds exactly the votes that came after it.

  * `early_votes_kept_iff`: nothing is lost exactly when the object arrives first.
-/
import Stonecoin.OrphanVotes

namespace Stonecoin

variable {H : Type} [DecidableEq H] {hash : CTxIn → UInt256 → ℤ → ℤ → ℤ → H}

/-! ### Votes in an object -/

namespace CGovernanceObject

variable {getMasternodeIndex : COutPoint → ℤ} {o o' : CGovernanceObject H}
  {vote : CGovernanceVote}

def Rivals (getMasternodeIndex : COutPoint → ℤ) (v w : CGovernanceVote) : Prop :=
  getMasternodeIndex v.vinMasternode.prevout = getMasternodeIndex w.vinMasternode.prevout ∧
    v.getSignal = w.getSignal

/-- The object has recorded these votes, no two of them rivals, and no others. -/
structure Holds (hash : CTxIn → UInt256 → ℤ → ℤ → ℤ → H) (getMasternodeIndex : COutPoint → ℤ)
    (o : CGovernanceObject H) (votes : List CGovernanceVote) : Prop where
  counted : ∀ v ∈ votes,
    o.getInstance (getMasternodeIndex v.vinMasternode.prevout) v.getSignal =
      some ⟨v.getOutcome, 0, v.nTime⟩
  other : ∀ i s, (∀ v ∈ votes, ¬ (getMasternodeIndex v.vinMasternode.prevout = i ∧
    v.getSignal = s)) → o.getInstance i s = none
  known : ∀ i, (o.mapCurrentMNVotes.lookup i).isSome = true ↔
    ∃ v ∈ votes, getMasternodeIndex v.vinMasternode.prevout = i
  file : ∀ v, v ∈ o.fileVotes.listVotes ↔ v ∈ votes
  index : ∀ nHash, o.fileVotes.hasVote nHash = true → ∃ v ∈ votes, v.getHash hash = nHash
  alive : o.fCachedDelete = false ∧ o.fExpired = false

omit [DecidableEq H] in
theorem isSome_lookup_setRec (i j : ℤ) (recVote : vote_rec_t) :
    ((o.setRec i recVote).mapCurrentMNVotes.lookup j).isSome = true ↔
      j = i ∨ (o.mapCurrentMNVotes.lookup j).isSome = true := by
  show ((o.mapCurrentMNVotes.insert i recVote).lookup j).isSome = true ↔ _
  rcases eq_or_ne j i with rfl | hj
  · simp
  · rw [AList.lookup_insert_ne hj]
    simp [hj]

theorem Holds.record {votes : List CGovernanceVote} (h : Holds hash getMasternodeIndex o votes)
    (hfresh : ∀ w ∈ votes, ¬ Rivals getMasternodeIndex vote w)
    (hhash : ∀ w ∈ votes, vote.getHash hash ≠ w.getHash hash) :
    Holds hash getMasternodeIndex
      (o.record hash (getMasternodeIndex vote.vinMasternode.prevout) vote) (vote :: votes) := by
  have hnone : o.getInstance (getMasternodeIndex vote.vinMasternode.prevout) vote.getSignal =
      none := h.other _ _ fun w hw hfor => hfresh w hw ⟨hfor.1.symm, hfor.2.symm⟩
  have hnew : o.fileVotes.hasVote (vote.getHash hash) = false := by
    rw [← Bool.not_eq_true]
    intro hhas
    obtain ⟨w, hw, he⟩ := h.index _ hhas
    exact hhash w hw he.symm
  have hfile : (o.record hash (getMasternodeIndex vote.vinMasternode.prevout) vote).fileVotes =
      o.fileVotes.addVote hash vote := by
    show (if o.fileVotes.hasVote (vote.getHash hash) = true then _ else _) = _
    rw [hnew]
    rfl
  refine ⟨?_, ?_, ?_, ?_, ?_, h.alive⟩
  · intro v hv
    rw [getInstance_record]
    rcases List.mem_cons.mp hv with rfl | hv
    · rw [if_pos ⟨rfl, rfl⟩, instanceOf, hnone]
      rfl
    · rw [if_neg fun hfor => hfresh v hv ⟨hfor.1.symm, hfor.2.symm⟩]
      exact h.counted v hv
  · intro i s hnot
    rw [getInstance_record, if_neg]
    · exact h.other i s fun v hv => hnot v (List.mem_cons_of_mem _ hv)
    · rintro ⟨rfl, rfl⟩
      exact hnot vote List.mem_cons_self ⟨rfl, rfl⟩
  · intro i
    show (((o.touch (getMasternodeIndex vote.vinMasternode.prevout) vote.getSignal).setInstance
      (getMasternodeIndex vote.vinMasternode.prevout) vote.getSignal
      _).mapCurrentMNVotes.lookup i).isSome = true ↔ _
    rw [setInstance, isSome_lookup_setRec, touch, setInstance, isSome_lookup_setRec,
      isSome_lookup_setRec, h.known i]
    simp [eq_comm]
  · intro v
    rw [hfile]
    show v ∈ vote :: o.fileVotes.listVotes ↔ _
    rw [List.mem_cons, List.mem_cons, h.file v]
  · intro nHash hhas
    rw [hfile] at hhas
    rcases eq_or_ne nHash (vote.getHash hash) with rfl | hne
    · exact ⟨vote, List.mem_cons_self, rfl⟩
    · have hold : o.fileVotes.hasVote nHash = true := by
        have hl : ((o.fileVotes.mapVoteIndex.insert (vote.getHash hash) vote).lookup
          nHash).isSome = true := hhas
        rwa [AList.lookup_insert_ne hne] at hl
      obtain ⟨w, hw, he⟩ := h.index nHash hold
      exact ⟨w, List.mem_cons_of_mem _ hw, he⟩

def SameVotes (o o' : CGovernanceObject H) : Prop :=
  (∀ i, (o.mapCurrentMNVotes.lookup i).isSome = (o'.mapCurrentMNVotes.lookup i).isSome) ∧
    (∀ i s, o.getInstance i s = o'.getInstance i s) ∧
    ∀ v, v ∈ o.fileVotes.listVotes ↔ v ∈ o'.fileVotes.listVotes

theorem Holds.sameVotes {votes votes' : List CGovernanceVote}
    (h : Holds hash getMasternodeIndex o votes) (h' : Holds hash getMasternodeIndex o' votes')
    (hmem : ∀ v, v ∈ votes ↔ v ∈ votes') : SameVotes o o' := by
  refine ⟨fun i => ?_, fun i s => ?_, fun v => ?_⟩
  · rw [Bool.eq_iff_iff, h.known, h'.known]
    simp only [hmem]
  · rcases Classical.em (∃ v ∈ votes, getMasternodeIndex v.vinMasternode.prevout = i ∧
      v.getSignal = s) with ⟨v, hv, rfl, rfl⟩ | hnot
    · rw [h.counted v hv, h'.counted v ((hmem v).mp hv)]
    · have hno : ∀ v ∈ votes, ¬ (getMasternodeIndex v.vinMasternode.prevout = i ∧
          v.getSignal = s) := fun v hv hfor => hnot ⟨v, hv, hfor⟩
      rw [h.other i s hno, h'.other i s fun v hv => hno v ((hmem v).mpr hv)]
  · rw [h.file, h'.file, hmem]

variable {env : GovernanceEnv}

theorem fInvalid_processVote {fRate : Bool} (hv : env.isValid vote = true) :
    (processVote hash env fRate o vote).fInvalid = false := by
  unfold processVote
  dsimp only
  rw [hv, if_neg (show ¬ (!true) = true by decide)]
  split_ifs <;> rfl

variable (hash o) in
theorem processVote_fresh (fRate : Bool) (hv : Votes env vote) (hs : Supported vote.getSignal)
    (htime : 0 ≤ vote.nTime) (hclock : GOVERNANCE_UPDATE_MIN ≤ env.getTime)
    (hnone : o.getInstance (env.getMasternodeIndex vote.vinMasternode.prevout) vote.getSignal =
      none) :
    processVote hash env fRate o vote =
      ⟨true, o.record hash (env.getMasternodeIndex vote.vinMasternode.prevout) vote, none,
        false⟩ := by
  have hinst : o.instanceOf (env.getMasternodeIndex vote.vinMasternode.prevout) vote.getSignal =
      .default := by rw [instanceOf, hnone]; rfl
  rw [processVote_supported hv.1 hs]
  dsimp only
  rw [hinst, hv.2, has_of_isValid hv.2]
  have hold : ¬ vote.nTime < vote_instance_t.default.nCreationTime := Int.not_lt.mpr htime
  have hrate : ¬ env.getTime - vote_instance_t.default.nTime < GOVERNANCE_UPDATE_MIN := by
    show ¬ env.getTime - 0 < _
    omega
  rw [if_neg hold, if_neg (by simp [hrate])]
  rfl

theorem holds_received {nHash : UInt256} {nObjectType nTime : ℤ}
    (hquorum : 0 < env.nGovernanceMinQuorum) :
    Holds hash getMasternodeIndex
      (((received nHash nObjectType nTime).updateSentinelVariables env).copy hash) [] := by
  have hflags : (((received nHash nObjectType nTime : CGovernanceObject H).updateSentinelVariables
      env)).fCachedDelete = false := by
    unfold updateSentinelVariables
    split_ifs
    · rfl
    · simp only [received, Bool.false_or, decide_eq_false_iff_not, not_and]
      intro hle
      have hmax := le_max_left env.nGovernanceMinQuorum (2 * env.countEnabled / 3 : ℕ)
      exact absurd (hmax.trans hle) (not_le.mpr hquorum)
  have hrest : (((received nHash nObjectType nTime : CGovernanceObject H).updateSentinelVariables
        env)).mapCurrentMNVotes = ∅ ∧
      (((received nHash nObjectType nTime : CGovernanceObject H).updateSentinelVariables
        env)).fileVotes = .empty ∧
      (((received nHash nObjectType nTime : CGovernanceObject H).updateSentinelVariables
        env)).fExpired = false := by
    unfold updateSentinelVariables
    split_ifs <;> exact ⟨rfl, rfl, rfl⟩
  obtain ⟨hmap, hfile, hexpired⟩ := hrest
  refine ⟨by simp, ?_, ?_, ?_, ?_, ⟨hflags, hexpired⟩⟩
  · intro i s _
    show ((AList.lookup i (updateSentinelVariables env _).mapCurrentMNVotes).getD ∅).lookup s = _
    rw [hmap]
    rfl
  · intro i
    show ((updateSentinelVariables env _).mapCurrentMNVotes.lookup i).isSome = true ↔ _
    rw [hmap]
    simp
  · intro v
    show v ∈ ((updateSentinelVariables env _).fileVotes.copy hash).listVotes ↔ _
    rw [hfile]
    exact Iff.rfl
  · intro nHash' hhas
    have hhas : ((updateSentinelVariables env _).fileVotes.copy hash).hasVote nHash' = true := hhas
    rw [hfile] at hhas
    exact absurd (show false = true from hhas) Bool.false_ne_true

end CGovernanceObject

/-! ### Messages -/

namespace CGovernanceManager

open CGovernanceObject

variable {getMasternodeIndex : COutPoint → ℤ} {m : CGovernanceManager H} {env : ManagerEnv}

def readVotes (hash : CTxIn → UInt256 → ℤ → ℤ → ℤ → H) (m : CGovernanceManager H)
    (calls : List (ManagerEnv × CGovernanceVote)) : CGovernanceManager H :=
  calls.foldl (fun m call => m.processVoteMessage hash call.1 call.2) m

/-- The node is synced, with this masternode index, and all the votes are valid to it. -/
structure Serves (getMasternodeIndex : COutPoint → ℤ) (votes : List CGovernanceVote)
    (env : ManagerEnv) : Prop where
  fLiteMode : env.fLiteMode = false
  isBlockchainSynced : env.isBlockchainSynced = true
  nVersion : MIN_GOVERNANCE_PEER_PROTO_VERSION ≤ env.nVersion
  isMasternodeListSynced : env.isMasternodeListSynced = true
  getMasternodeIndex : env.getMasternodeIndex = getMasternodeIndex
  fIndexRebuilt : env.fIndexRebuilt = none
  getTime : GOVERNANCE_UPDATE_MIN ≤ env.getTime
  isValid : ∀ v ∈ votes, env.isValid v = true

theorem Serves.mono {votes us : List CGovernanceVote} (h : Serves getMasternodeIndex votes env)
    (hsub : ∀ v ∈ us, v ∈ votes) : Serves getMasternodeIndex us env :=
  { h with isValid := fun v hv => h.isValid v (hsub v hv) }

/-- Votes for one object, one for each masternode and signal, that the manager has asked for
and does not take for invalid. -/
structure Awaits (hash : CTxIn → UInt256 → ℤ → ℤ → ℤ → H) (getMasternodeIndex : COutPoint → ℤ)
    (nHash : UInt256) (m : CGovernanceManager H) (votes : List CGovernanceVote) : Prop where
  parent : ∀ v ∈ votes, v.nParentHash = nHash
  known : ∀ v ∈ votes, 0 ≤ getMasternodeIndex v.vinMasternode.prevout
  supported : ∀ v ∈ votes, Supported v.getSignal
  time : ∀ v ∈ votes, 0 ≤ v.nTime
  single : votes.Pairwise fun v w => ¬ Rivals getMasternodeIndex v w
  hashes : votes.Pairwise fun v w => v.getHash hash ≠ w.getHash hash
  requested : ∀ v ∈ votes, v.getHash hash ∈ m.setRequestedVotes
  notInvalid : ∀ v ∈ votes, m.mapInvalidVotes.hasKey (v.getHash hash) = false

namespace Awaits

variable {nHash : UInt256} {vote : CGovernanceVote} {votes us : List CGovernanceVote}

omit [DecidableEq H] in
theorem rivals_comm {v w : CGovernanceVote} (h : ¬ Rivals getMasternodeIndex v w) :
    ¬ Rivals getMasternodeIndex w v := fun h' => h ⟨h'.1.symm, h'.2.symm⟩

theorem perm (h : Awaits hash getMasternodeIndex nHash m votes) (hperm : us.Perm votes) :
    Awaits hash getMasternodeIndex nHash m us where
  parent := fun v hv => h.parent v (hperm.mem_iff.mp hv)
  known := fun v hv => h.known v (hperm.mem_iff.mp hv)
  supported := fun v hv => h.supported v (hperm.mem_iff.mp hv)
  time := fun v hv => h.time v (hperm.mem_iff.mp hv)
  single := (hperm.pairwise_iff rivals_comm).mpr h.single
  hashes := (hperm.pairwise_iff Ne.symm).mpr h.hashes
  requested := fun v hv => h.requested v (hperm.mem_iff.mp hv)
  notInvalid := fun v hv => h.notInvalid v (hperm.mem_iff.mp hv)

theorem tail (h : Awaits hash getMasternodeIndex nHash m (vote :: votes))
    {m' : CGovernanceManager H}
    (hreq : m'.setRequestedVotes = m.setRequestedVotes.erase (vote.getHash hash))
    (hinv : m'.mapInvalidVotes = m.mapInvalidVotes) :
    Awaits hash getMasternodeIndex nHash m' votes where
  parent := fun v hv => h.parent v (List.mem_cons_of_mem _ hv)
  known := fun v hv => h.known v (List.mem_cons_of_mem _ hv)
  supported := fun v hv => h.supported v (List.mem_cons_of_mem _ hv)
  time := fun v hv => h.time v (List.mem_cons_of_mem _ hv)
  single := h.single.of_cons
  hashes := h.hashes.of_cons
  requested := fun v hv => by
    have hne := (List.pairwise_cons.mp h.hashes).1 v hv
    rw [hreq, List.mem_erase_of_ne hne.symm]
    exact h.requested v (List.mem_cons_of_mem _ hv)
  notInvalid := fun v hv => by
    rw [hinv]
    exact h.notInvalid v (List.mem_cons_of_mem _ hv)

theorem congr (h : Awaits hash getMasternodeIndex nHash m votes) {m' : CGovernanceManager H}
    (hreq : m'.setRequestedVotes = m.setRequestedVotes)
    (hinv : m'.mapInvalidVotes = m.mapInvalidVotes) :
    Awaits hash getMasternodeIndex nHash m' votes :=
  { h with
    requested := fun v hv => hreq ▸ h.requested v hv
    notInvalid := fun v hv => hinv ▸ h.notInvalid v hv }

end Awaits

def acceptVote (hash : CTxIn → UInt256 → ℤ → ℤ → ℤ → H) (m : CGovernanceManager H)
    (vote : CGovernanceVote) : CGovernanceManager H :=
  { m with setRequestedVotes := m.setRequestedVotes.erase (vote.getHash hash) }

theorem processVoteMessage_of_serves {votes : List CGovernanceVote} {vote : CGovernanceVote}
    (henv : Serves getMasternodeIndex votes env) (hreq : vote.getHash hash ∈ m.setRequestedVotes) :
    m.processVoteMessage hash env vote =
      ((m.acceptVote hash vote).processVote hash env vote).2.1 := by
  unfold processVoteMessage
  rw [henv.fLiteMode, henv.isBlockchainSynced, henv.isMasternodeListSynced,
    if_neg Bool.false_ne_true, if_neg (by decide), if_neg (Int.not_lt.mpr henv.nVersion),
    if_neg (by decide), if_neg (not_not.mpr hreq)]
  rfl

def stored (m : CGovernanceManager H) (nHash : UInt256) : Option (CGovernanceObject H) :=
  (m.mapObjects.lookup nHash).map (·.govobj)

theorem processVote_taken {vote : CGovernanceVote} {st : StoredObject H} {o : CGovernanceObject H}
    (hinv : m.mapInvalidVotes.hasKey (vote.getHash hash) = false)
    (hst : m.mapObjects.lookup vote.nParentHash = some st)
    (halive : st.govobj.fCachedDelete = false ∧ st.govobj.fExpired = false)
    (hrebuilt : env.fIndexRebuilt = none)
    (hr : st.govobj.processVote hash env.toGovernanceEnv m.fRateChecksEnabled vote =
      ⟨true, o, none, false⟩) :
    (m.processVote hash env vote).2.1 =
      { m with
        mapObjects := m.mapObjects.insert vote.nParentHash { st with govobj := o }
        mapVoteToObject := m.mapVoteToObject.insert (vote.getHash hash) st.addr } := by
  have hrebuild : m.rebuildVoteMaps env = m := by
    unfold rebuildVoteMaps
    rw [hrebuilt]
  unfold processVote
  simp only [hinv, hst, halive.1, halive.2, hrebuild, hr, modifyObject, Bool.false_eq_true,
    Bool.or_self, if_false, if_true]

theorem readVote_stored {nHash : UInt256} {vote : CGovernanceVote}
    {votes read : List CGovernanceVote} {o : CGovernanceObject H}
    (henv : Serves getMasternodeIndex (vote :: votes) env)
    (h : Awaits hash getMasternodeIndex nHash m (vote :: votes))
    (ho : m.stored nHash = some o) (hholds : Holds hash getMasternodeIndex o read)
    (hfresh : ∀ w ∈ read, ¬ Rivals getMasternodeIndex vote w) :
    (m.processVoteMessage hash env vote).stored nHash =
        some (o.record hash (getMasternodeIndex vote.vinMasternode.prevout) vote) ∧
      Awaits hash getMasternodeIndex nHash (m.processVoteMessage hash env vote) votes := by
  have hmem : vote ∈ vote :: votes := List.mem_cons_self
  obtain ⟨st, hst, rfl⟩ : ∃ st, m.mapObjects.lookup nHash = some st ∧ st.govobj = o := by
    simpa [stored] using ho
  have hindex := henv.getMasternodeIndex
  have hvotes : Votes env.toGovernanceEnv vote :=
    ⟨by rw [hindex]; exact h.known vote hmem, henv.isValid vote hmem⟩
  have hr := processVote_fresh hash st.govobj m.fRateChecksEnabled
    hvotes (h.supported vote hmem) (h.time vote hmem) henv.getTime (by
      rw [hindex]
      exact hholds.other _ _ fun w hw hfor => hfresh w hw ⟨hfor.1.symm, hfor.2.symm⟩)
  rw [hindex] at hr
  have hparent := h.parent vote hmem
  rw [processVoteMessage_of_serves henv (h.requested vote hmem),
    processVote_taken (m := m.acceptVote hash vote) (h.notInvalid vote hmem)
      (by rw [hparent]; exact hst) hholds.alive henv.fIndexRebuilt hr]
  refine ⟨?_, h.tail rfl rfl⟩
  show ((m.mapObjects.insert vote.nParentHash _).lookup nHash).map _ = _
  rw [hparent, AList.lookup_insert]
  rfl

theorem readVotes_stored {nHash : UInt256} :
    ∀ {calls : List (ManagerEnv × CGovernanceVote)} {m : CGovernanceManager H}
      {read : List CGovernanceVote} {o : CGovernanceObject H},
    (∀ call ∈ calls, Serves getMasternodeIndex (calls.map Prod.snd) call.1) →
    Awaits hash getMasternodeIndex nHash m (calls.map Prod.snd) →
    m.stored nHash = some o → Holds hash getMasternodeIndex o read →
    (∀ v ∈ calls.map Prod.snd, ∀ w ∈ read, ¬ Rivals getMasternodeIndex v w ∧
      v.getHash hash ≠ w.getHash hash) →
    ∃ o', (readVotes hash m calls).stored nHash = some o' ∧
      Holds hash getMasternodeIndex o' ((calls.map Prod.snd).reverse ++ read)
  | [], m, read, o, _, _, ho, hholds, _ => ⟨o, ho, hholds⟩
  | call :: calls, m, read, o, henv, hawaits, ho, hholds, hfresh => by
    have hcall := hfresh call.2 List.mem_cons_self
    obtain ⟨ho', hawaits'⟩ := readVote_stored (henv call List.mem_cons_self) hawaits ho hholds
      fun w hw => (hcall w hw).1
    have hholds' := hholds.record (fun w hw => (hcall w hw).1) fun w hw => (hcall w hw).2
    have henv' : ∀ c ∈ calls, Serves getMasternodeIndex (calls.map Prod.snd) c.1 := fun c hc =>
      (henv c (List.mem_cons_of_mem _ hc)).mono fun v hv => List.mem_cons_of_mem _ hv
    obtain ⟨o', hfinal, hall⟩ := readVotes_stored henv' hawaits' ho' hholds' (by
      intro v hv w hw
      rcases List.mem_cons.mp hw with rfl | hw
      · -- the vote that has just been read
        exact ⟨Awaits.rivals_comm ((List.pairwise_cons.mp hawaits.single).1 v hv),
          ((List.pairwise_cons.mp hawaits.hashes).1 v hv).symm⟩
      · exact hfresh v (List.mem_cons_of_mem _ hv) w hw)
    refine ⟨o', hfinal, ?_⟩
    rw [List.map_cons, List.reverse_cons, List.append_assoc]
    exact hall

/-! ### Before the object -/

theorem readVotes_early {nHash : UInt256} :
    ∀ {calls : List (ManagerEnv × CGovernanceVote)} {m : CGovernanceManager H}
      {later : List CGovernanceVote},
    (∀ call ∈ calls, Serves getMasternodeIndex (calls.map Prod.snd) call.1) →
    Awaits hash getMasternodeIndex nHash m (calls.map Prod.snd ++ later) →
    m.mapObjects.lookup nHash = none →
    ∃ mapOrphanVotes setRequestedVotes,
      readVotes hash m calls =
        { m with mapOrphanVotes := mapOrphanVotes, setRequestedVotes := setRequestedVotes } ∧
      Awaits hash getMasternodeIndex nHash (readVotes hash m calls) later ∧
      ∀ p ∈ mapOrphanVotes.getAll nHash,
        p.1 ∈ calls.map Prod.snd ∨ p ∈ m.mapOrphanVotes.getAll nHash
  | [], m, later, _, hawaits, _ => ⟨_, _, rfl, hawaits, fun _ hp => .inr hp⟩
  | call :: calls, m, later, henv, hawaits, hnone => by
    have hmem : call.2 ∈ (call :: calls).map Prod.snd ++ later := List.mem_cons_self
    have hparent := hawaits.parent call.2 hmem
    have hfirst : m.processVoteMessage hash call.1 call.2 =
        (m.acceptVote hash call.2).parkVote call.1 call.2 := by
      rw [processVoteMessage_of_serves (henv call List.mem_cons_self)
        (hawaits.requested call.2 hmem), processVote_unknown]
      · rw [if_neg]
        show ¬ m.mapInvalidVotes.hasKey (call.2.getHash hash) = true
        rw [hawaits.notInvalid call.2 hmem]
        exact Bool.false_ne_true
      · show m.mapObjects.lookup call.2.nParentHash = none
        rw [hparent]
        exact hnone
    have hawaits' : Awaits hash getMasternodeIndex nHash
        (m.processVoteMessage hash call.1 call.2) (calls.map Prod.snd ++ later) := by
      rw [hfirst]
      exact hawaits.tail rfl rfl
    have henv' : ∀ c ∈ calls, Serves getMasternodeIndex (calls.map Prod.snd) c.1 := fun c hc =>
      (henv c (List.mem_cons_of_mem _ hc)).mono fun v hv => List.mem_cons_of_mem _ hv
    obtain ⟨c, r, heq, hlater, hparked⟩ :=
      readVotes_early henv' hawaits' (by rw [hfirst]; exact hnone)
    refine ⟨c, r, ?_, hlater, ?_⟩
    · show readVotes hash (m.processVoteMessage hash call.1 call.2) calls = _
      rw [heq, hfirst]
      rfl
    · intro p hp
      rcases hparked p hp with hold | hold
      · exact .inl (List.mem_cons_of_mem _ hold)
      · rw [hfirst] at hold
        rcases CacheMultiMap.mem_getAll_insert voteTimeLt hold with rfl | hold
        · exact .inl List.mem_cons_self
        · exact .inr hold

/-! ### The object -/

omit [DecidableEq H] in
variable (m env) in
theorem updateCurrentWatchdog_eq (govobj : CGovernanceObject H) :
    ∃ mapObjects nHashWatchdogCurrent nTimeWatchdogCurrent,
      (m.updateCurrentWatchdog env govobj).2 =
        { m with
          mapObjects := mapObjects
          nHashWatchdogCurrent := nHashWatchdogCurrent
          nTimeWatchdogCurrent := nTimeWatchdogCurrent } := by
  unfold updateCurrentWatchdog
  dsimp only
  split_ifs
  · rw [modifyObject_eq]
    exact ⟨_, _, _, rfl⟩
  · exact ⟨_, _, _, rfl⟩

theorem addGovernanceObject_added {govobj : CGovernanceObject H}
    (h : (m.addGovernanceObject hash env govobj).1 = true) :
    ∃ m' : CGovernanceManager H, m.addGovernanceObject hash env govobj = (true, true, m'.storeObject hash govobj) ∧
      m'.setRequestedVotes = m.setRequestedVotes ∧ m'.mapInvalidVotes = m.mapInvalidVotes ∧
      m'.mapOrphanVotes = m.mapOrphanVotes := by
  unfold addGovernanceObject at h ⊢
  split_ifs at h ⊢ with hvalid hknown hwatchdog htime
  · obtain ⟨mapObjects, nHash, nTime, he⟩ := updateCurrentWatchdog_eq m env govobj
    rcases hw : m.updateCurrentWatchdog env govobj with ⟨fUpdated, m'⟩
    rw [hw] at h he
    obtain rfl : m' = _ := he
    cases fUpdated with
    | false => exact absurd h (by simp)
    | true => exact ⟨_, rfl, rfl, rfl, rfl⟩
  · exact ⟨m, rfl, rfl, rfl, rfl⟩

theorem addGovernanceObject_congr {m' : CGovernanceManager H} (govobj : CGovernanceObject H)
    (hobjects : m'.mapObjects = m.mapObjects)
    (hhash : m'.nHashWatchdogCurrent = m.nHashWatchdogCurrent)
    (htime : m'.nTimeWatchdogCurrent = m.nTimeWatchdogCurrent) :
    (m'.addGovernanceObject hash env govobj).1 = (m.addGovernanceObject hash env govobj).1 := by
  unfold addGovernanceObject updateCurrentWatchdog
  dsimp only
  rw [hobjects, hhash, htime]
  split_ifs <;> rfl

variable (hash) in
theorem foldl_checkOrphanVote :
    ∀ {pairs : List (CGovernanceVote × ℤ)}, (∀ p ∈ pairs, env.isValid p.1 = true) →
    ∀ (nHash : UInt256) (m : CGovernanceManager H) (govobj : CGovernanceObject H),
    ∃ mapOrphanVotes, (pairs.foldl (checkOrphanVote hash env nHash) (m, govobj)).1 =
      { m with mapOrphanVotes := mapOrphanVotes }
  | [], _, _, _, _ => ⟨_, rfl⟩
  | p :: pairs, hvalid, nHash, m, govobj => by
    have hstep : ∃ mapOrphanVotes, (checkOrphanVote hash env nHash (m, govobj) p).1 =
        { m with mapOrphanVotes := mapOrphanVotes } := by
      have hinvalid : (CGovernanceObject.processVote hash env.toGovernanceEnv m.fRateChecksEnabled
          govobj p.1).fInvalid = false := fInvalid_processVote (hvalid p List.mem_cons_self)
      unfold checkOrphanVote
      dsimp only
      rw [hinvalid, if_neg Bool.false_ne_true]
      split_ifs <;> exact ⟨_, rfl⟩
    obtain ⟨c, hc⟩ := hstep
    rcases hp : checkOrphanVote hash env nHash (m, govobj) p with ⟨m', govobj'⟩
    rw [hp] at hc
    obtain rfl : m' = _ := hc
    have hvalid' : ∀ q ∈ pairs, env.isValid q.1 = true := fun q hq =>
      hvalid q (List.mem_cons_of_mem _ hq)
    obtain ⟨c', hc'⟩ := foldl_checkOrphanVote hvalid' nHash { m with mapOrphanVotes := c } govobj'
    refine ⟨c', ?_⟩
    rw [List.foldl_cons, hp, hc']

variable (hash) in
theorem checkOrphanVotes_eq (hrebuilt : env.fIndexRebuilt = none) (m : CGovernanceManager H)
    {govobj : CGovernanceObject H}
    (hvalid : ∀ p ∈ m.mapOrphanVotes.getAll govobj.nHash, env.isValid p.1 = true) :
    ∃ mapOrphanVotes, (m.checkOrphanVotes hash env govobj).1 =
      { m with mapOrphanVotes := mapOrphanVotes, fRateChecksEnabled := true } := by
  have hrebuild : m.rebuildVoteMaps env = m := by
    unfold rebuildVoteMaps
    rw [hrebuilt]
  obtain ⟨c, hc⟩ := foldl_checkOrphanVote hash hvalid govobj.nHash
    { m with fRateChecksEnabled := false } govobj
  refine ⟨c, ?_⟩
  unfold checkOrphanVotes
  simp only [hrebuild, ite_self]
  rw [hc]

/-- The object of a message, when its flags have been computed. -/
def arrived (env : ManagerEnv) (nHash : UInt256) (nObjectType nTime : ℤ) : CGovernanceObject H :=
  (received nHash nObjectType nTime).updateSentinelVariables env.toGovernanceEnv

/-- The object message is taken: the node has a tip and has asked for the object, which is new,
passes the rate checks, is valid and is added. -/
structure TakesObject (hash : CTxIn → UInt256 → ℤ → ℤ → ℤ → H) (env : ManagerEnv)
    (m : CGovernanceManager H) (nHash : UInt256) (nObjectType nTime : ℤ) : Prop where
  pCurrentBlockIndex : m.pCurrentBlockIndex = true
  requested : nHash ∈ m.setRequestedObjects
  unseen : m.mapSeenGovernanceObjects.lookup nHash = none
  masternodeRateCheck : (env.masternodeRateCheck nHash).1 = true
  masternodeRateCheckForced :
    ((env.masternodeRateCheck nHash).2 && !env.masternodeRateCheckForced nHash) = false
  isValidLocally : (env.isValidLocally nHash).1 = true
  added : (m.addGovernanceObject hash env (arrived env nHash nObjectType nTime)).1 = true
  nGovernanceMinQuorum : 0 < env.nGovernanceMinQuorum

omit [DecidableEq H] in
theorem nHash_arrived (nHash : UInt256) (nObjectType nTime : ℤ) :
    (arrived env nHash nObjectType nTime : CGovernanceObject H).nHash = nHash := by
  unfold arrived updateSentinelVariables
  split_ifs <;> rfl

theorem processObjectMessage_taken {nHash : UInt256} {nObjectType nTime : ℤ}
    {votes : List CGovernanceVote} (henv : Serves getMasternodeIndex votes env)
    (h : TakesObject hash env m nHash nObjectType nTime) :
    ∃ m' : CGovernanceManager H, m'.mapObjects = m.mapObjects ∧
      m'.nHashWatchdogCurrent = m.nHashWatchdogCurrent ∧
      m'.nTimeWatchdogCurrent = m.nTimeWatchdogCurrent ∧
      m'.setRequestedVotes = m.setRequestedVotes ∧ m'.mapInvalidVotes = m.mapInvalidVotes ∧
      m'.mapOrphanVotes = m.mapOrphanVotes ∧
      m.processObjectMessage hash env (received nHash nObjectType nTime) =
        (let r := m'.addGovernanceObject hash env (arrived env nHash nObjectType nTime)
        (checkOrphanVotes hash env
          (if r.2.1 then
            { r.2.2 with
              mapSeenGovernanceObjects := insertNew r.2.2.mapSeenGovernanceObjects
                (arrived env nHash nObjectType nTime : CGovernanceObject H).nHash
                SEEN_OBJECT_IS_VALID }
          else r.2.2) (arrived env nHash nObjectType nTime)).1) := by
  have hhash : (received nHash nObjectType nTime : CGovernanceObject H).nHash = nHash := rfl
  rcases hlocal : env.isValidLocally nHash with ⟨fIsValid, fMasternodeMissing⟩
  obtain rfl : fIsValid = true := by
    have hvalid := h.isValidLocally
    rwa [hlocal] at hvalid
  unfold processObjectMessage
  rw [if_neg (by rw [henv.fLiteMode]; exact Bool.false_ne_true),
    if_neg (by rw [henv.isBlockchainSynced]; decide), if_neg (Int.not_lt.mpr henv.nVersion),
    if_neg (by rw [h.pCurrentBlockIndex]; decide),
    if_neg (by rw [henv.isMasternodeListSynced]; decide), hhash,
    if_neg (not_not.mpr h.requested), hlocal]
  dsimp only
  rw [if_neg (by rw [h.unseen]; exact Bool.false_ne_true),
    if_neg (by rw [h.masternodeRateCheck]; decide), if_neg (by decide),
    if_neg (by rw [h.masternodeRateCheckForced]; exact Bool.false_ne_true)]
  refine ⟨_, ?_, ?_, ?_, ?_, ?_, ?_, rfl⟩ <;> cases fMasternodeMissing <;> rfl

theorem readObject_stored {nHash : UInt256} {nObjectType nTime : ℤ}
    {votes : List CGovernanceVote} (henv : Serves getMasternodeIndex votes env)
    (h : TakesObject hash env m nHash nObjectType nTime)
    (hvalid : ∀ p ∈ m.mapOrphanVotes.getAll nHash, env.isValid p.1 = true) :
    (m.processObjectMessage hash env (received nHash nObjectType nTime)).stored nHash =
        some ((arrived env nHash nObjectType nTime).copy hash) ∧
      (m.processObjectMessage hash env (received nHash nObjectType nTime)).setRequestedVotes =
        m.setRequestedVotes ∧
      (m.processObjectMessage hash env (received nHash nObjectType nTime)).mapInvalidVotes =
        m.mapInvalidVotes := by
  obtain ⟨m', hobjects, hwhash, hwtime, hreq, hinv, horphan, heq⟩ :=
    processObjectMessage_taken henv h
  have hadded : (m'.addGovernanceObject hash env (arrived env nHash nObjectType nTime)).1 =
      true := (addGovernanceObject_congr _ hobjects hwhash hwtime).trans h.added
  obtain ⟨m₂, hadd, hreq₂, hinv₂, horphan₂⟩ := addGovernanceObject_added hadded
  rw [heq, hadd]
  dsimp only
  rw [if_pos rfl]
  -- the cache is read when the object has been stored
  have hvalid' : ∀ p ∈ m₂.mapOrphanVotes.getAll
      (arrived env nHash nObjectType nTime : CGovernanceObject H).nHash,
      env.isValid p.1 = true := by
    rw [nHash_arrived, horphan₂, horphan]
    exact hvalid
  obtain ⟨c, hc⟩ := checkOrphanVotes_eq hash henv.fIndexRebuilt
    { m₂.storeObject hash (arrived env nHash nObjectType nTime) with
      mapSeenGovernanceObjects := insertNew
        (m₂.storeObject hash (arrived env nHash nObjectType nTime)).mapSeenGovernanceObjects
        (arrived env nHash nObjectType nTime : CGovernanceObject H).nHash SEEN_OBJECT_IS_VALID }
    hvalid'
  rw [hc]
  refine ⟨?_, hreq₂.trans hreq, hinv₂.trans hinv⟩
  show ((m₂.mapObjects.insert (arrived env nHash nObjectType nTime : CGovernanceObject H).nHash
    _).lookup nHash).map _ = _
  rw [nHash_arrived, AList.lookup_insert]
  rfl

/-! ### Any order -/

/-- Vote messages, the object message, and further vote messages. -/
def arrive (hash : CTxIn → UInt256 → ℤ → ℤ → ℤ → H) (m : CGovernanceManager H)
    (early : List (ManagerEnv × CGovernanceVote)) (env : ManagerEnv)
    (govobj : CGovernanceObject H) (late : List (ManagerEnv × CGovernanceVote)) :
    CGovernanceManager H :=
  readVotes hash ((readVotes hash m early).processObjectMessage hash env govobj) late

theorem early_votes_stored {nHash : UInt256} {nObjectType nTime : ℤ}
    {early late : List (ManagerEnv × CGovernanceVote)}
    (henv : ∀ call ∈ early ++ late, Serves getMasternodeIndex ((early ++ late).map Prod.snd) call.1)
    (henv' : Serves getMasternodeIndex ((early ++ late).map Prod.snd) env)
    (hawaits : Awaits hash getMasternodeIndex nHash m ((early ++ late).map Prod.snd))
    (hnone : m.mapObjects.lookup nHash = none) (hparked : m.mapOrphanVotes.getAll nHash = [])
    (hobj : TakesObject hash env m nHash nObjectType nTime) :
    ∃ o, (arrive hash m early env (received nHash nObjectType nTime) late).stored nHash = some o ∧
      Holds hash getMasternodeIndex o (late.map Prod.snd).reverse := by
  rw [List.map_append] at henv henv' hawaits
  have hearly : ∀ {calls : List (ManagerEnv × CGovernanceVote)},
      (∀ call ∈ calls, call ∈ early ++ late) →
      ∀ call ∈ calls, Serves getMasternodeIndex (calls.map Prod.snd) call.1 := by
    intro calls hsub call hcall
    refine (henv call (hsub call hcall)).mono fun v hv => ?_
    obtain ⟨call', hcall', rfl⟩ := List.mem_map.mp hv
    rw [← List.map_append]
    exact List.mem_map_of_mem (hsub call' hcall')
  obtain ⟨c, r, heq, hlater, hwaiting⟩ := readVotes_early
    (hearly fun call hcall => List.mem_append_left _ hcall) hawaits hnone
  have hvalid : ∀ p ∈ (readVotes hash m early).mapOrphanVotes.getAll nHash,
      env.isValid p.1 = true := by
    rw [heq]
    intro p hp
    rcases hwaiting p hp with hmem | hmem
    · exact henv'.isValid p.1 (List.mem_append_left _ hmem)
    · rw [hparked] at hmem
      exact absurd hmem List.not_mem_nil
  have hobj' : TakesObject hash env (readVotes hash m early) nHash nObjectType nTime := by
    rw [heq]
    refine { hobj with added := ?_ }
    refine (addGovernanceObject_congr (m := m) _ ?_ ?_ ?_).trans hobj.added <;> rfl
  obtain ⟨hstored, hreq, hinv⟩ := readObject_stored henv' hobj' hvalid
  obtain ⟨o, ho, hholds⟩ := readVotes_stored
    (hearly fun call hcall => List.mem_append_right _ hcall) (hlater.congr hreq hinv) hstored
    (holds_received hobj.nGovernanceMinQuorum) fun _ _ _ hw => absurd hw List.not_mem_nil
  rw [List.append_nil] at hholds
  exact ⟨o, ho, hholds⟩

/-- **No early vote is lost** if and only if there is none: the stored object ends as it does
when it arrives before its votes exactly when it has done so. -/
theorem early_votes_kept_iff {nHash : UInt256} {nObjectType nTime : ℤ}
    {early late votes : List (ManagerEnv × CGovernanceVote)} {env' : ManagerEnv}
    (hperm : ((early ++ late).map Prod.snd).Perm (votes.map Prod.snd))
    (henv : ∀ call ∈ early ++ late ++ votes,
      Serves getMasternodeIndex (votes.map Prod.snd) call.1)
    (hfirst : Serves getMasternodeIndex (votes.map Prod.snd) env)
    (hsecond : Serves getMasternodeIndex (votes.map Prod.snd) env')
    (hawaits : Awaits hash getMasternodeIndex nHash m (votes.map Prod.snd))
    (hnone : m.mapObjects.lookup nHash = none) (hparked : m.mapOrphanVotes.getAll nHash = [])
    (hobj : TakesObject hash env m nHash nObjectType nTime)
    (hobj' : TakesObject hash env' m nHash nObjectType nTime) :
    (∃ o o',
      (arrive hash m early env (received nHash nObjectType nTime) late).stored nHash = some o ∧
      (arrive hash m [] env' (received nHash nObjectType nTime) votes).stored nHash = some o' ∧
      SameVotes o o') ↔ early = [] := by
  have hserves : ∀ call ∈ early ++ late,
      Serves getMasternodeIndex ((early ++ late).map Prod.snd) call.1 := fun call hcall =>
    (henv call (List.mem_append_left _ hcall)).mono fun v hv => hperm.mem_iff.mp hv
  have hserves' : ∀ call ∈ [] ++ votes,
      Serves getMasternodeIndex (([] ++ votes).map Prod.snd) call.1 := fun call hcall =>
    henv call (List.mem_append_right _ hcall)
  obtain ⟨o, ho, hholds⟩ := early_votes_stored hserves
    (hfirst.mono fun v hv => hperm.mem_iff.mp hv) (hawaits.perm hperm) hnone hparked hobj
  obtain ⟨o', ho', hholds'⟩ := early_votes_stored hserves' hsecond hawaits hnone hparked hobj'
  constructor
  · rintro ⟨o₁, o₁', ho₁, ho₁', hsame⟩
    obtain rfl := Option.some.inj (ho.symm.trans ho₁)
    obtain rfl := Option.some.inj (ho'.symm.trans ho₁')
    rw [List.eq_nil_iff_forall_not_mem]
    intro call hcall
    -- a vote that came early is in the file of the other object only
    have hearly : call.2 ∈ early.map Prod.snd := List.mem_map_of_mem hcall
    have hvote : call.2 ∈ votes.map Prod.snd := by
      rw [← hperm.mem_iff, List.map_append]
      exact List.mem_append_left _ hearly
    have hfile := (hsame.2.2 call.2).mpr ((hholds'.file _).mpr (List.mem_reverse.mpr hvote))
    have hlate := List.mem_reverse.mp ((hholds.file _).mp hfile)
    have hdistinct := (hawaits.perm hperm).hashes
    rw [List.map_append] at hdistinct
    exact (List.pairwise_append.mp hdistinct).2.2 _ hearly _ hlate rfl
  · rintro rfl
    refine ⟨o, o', ho, ho', hholds.sameVotes hholds' fun v => ?_⟩
    rw [List.mem_reverse, List.mem_reverse]
    exact hperm.mem_iff

/-- A node that has asked for object 5 and for two votes on it. -/
def asking : CGovernanceManager (CTxIn × UInt256 × ℤ × ℤ × ℤ) :=
  { init with
    pCurrentBlockIndex := true
    setRequestedObjects := [5]
    setRequestedVotes := [(fundingVote 0 VOTE_OUTCOME_YES).getHash voteTuple,
      (fundingVote 1 VOTE_OUTCOME_NO).getHash voteTuple] }

def twoVotes : List (ManagerEnv × CGovernanceVote) :=
  [(openManagerEnv, fundingVote 0 VOTE_OUTCOME_YES),
    (openManagerEnv, fundingVote 1 VOTE_OUTCOME_NO)]

theorem serves_openManagerEnv :
    Serves (fun out => out.n) (twoVotes.map Prod.snd) openManagerEnv where
  fLiteMode := rfl
  isBlockchainSynced := rfl
  nVersion := le_refl _
  isMasternodeListSynced := rfl
  getMasternodeIndex := rfl
  fIndexRebuilt := rfl
  getTime := by decide
  isValid := by decide

theorem asking_awaits :
    Awaits voteTuple (fun out => out.n) 5 asking (twoVotes.map Prod.snd) where
  parent := by decide
  known := by decide
  supported := by decide
  time := by decide
  single := by simp [twoVotes, Rivals, fundingVote]
  hashes := by simp [twoVotes, voteTuple, CGovernanceVote.getHash, fundingVote]
  requested := by decide
  notInvalid := by decide

theorem asking_takesObject : TakesObject voteTuple openManagerEnv asking 5 1 1480000000 where
  pCurrentBlockIndex := rfl
  requested := by decide
  unseen := rfl
  masternodeRateCheck := rfl
  masternodeRateCheckForced := rfl
  isValidLocally := rfl
  added := by decide +kernel
  nGovernanceMinQuorum := by decide

theorem early_votes_kept_iff_two :
    (∃ o o',
      (arrive voteTuple asking [] openManagerEnv (received 5 1 1480000000) twoVotes).stored 5 =
        some o ∧
      (arrive voteTuple asking [] openManagerEnv (received 5 1 1480000000) twoVotes).stored 5 =
        some o' ∧ SameVotes o o') ↔ ([] : List (ManagerEnv × CGovernanceVote)) = [] := by
  apply early_votes_kept_iff (List.Perm.refl _) ?_ serves_openManagerEnv serves_openManagerEnv
    asking_awaits rfl rfl asking_takesObject asking_takesObject
  intro call hcall
  have hcall : call ∈ twoVotes := by simpa using hcall
  obtain rfl | rfl : call = _ ∨ call = _ := by simpa [twoVotes] using hcall
  · exact serves_openManagerEnv
  · exact serves_openManagerEnv

/-- Two votes that come before their object are gone: neither parked nor in the object. -/
theorem early_votes_are_lost :
    ((arrive voteTuple asking twoVotes openManagerEnv (received 5 1 1480000000) []).stored 5).map
        (fun o => (o.getYesCount VOTE_SIGNAL_FUNDING, o.getNoCount VOTE_SIGNAL_FUNDING,
          o.fileVotes.listVotes)) = some (0, 0, []) ∧
      (arrive voteTuple asking twoVotes openManagerEnv (received 5 1 1480000000)
        []).mapOrphanVotes.getAll 5 = [] ∧
      ((arrive voteTuple asking [] openManagerEnv (received 5 1 1480000000) twoVotes).stored
        5).map (fun o => (o.getYesCount VOTE_SIGNAL_FUNDING, o.getNoCount VOTE_SIGNAL_FUNDING,
          o.fileVotes.listVotes)) =
        some (1, 1, [fundingVote 1 VOTE_OUTCOME_NO, fundingVote 0 VOTE_OUTCOME_YES]) := by
  decide +kernel

end CGovernanceManager

end Stonecoin
