/-
The references to objects that `mapVoteToObject` keeps.

Of an object the references look at its address and its vote file (`refs`).  Most operations
change neither (`Keeps`); `clearDirtyObjects` takes votes out of files; storing, deleting and
voting come one by one.

  * `references_ok`: every reference leads to a stored object, whose file has the vote or had
                      it until `ClearMasternodeVotes` took it out.
-/
import Stonecoin.GovernanceManager
import Stonecoin.VoteFiles
import Mathlib.Data.List.Induction

namespace Stonecoin

variable {H : Type} [DecidableEq H] {hash : CTxIn → UInt256 → ℤ → ℤ → ℤ → H}

namespace CGovernanceManager

open CGovernanceObjectVoteFile

variable {env : ManagerEnv} {m m' : CGovernanceManager H} {R : H → ℕ → Prop}

/-! ### Addresses and files -/

/-- Address and vote file of a stored object. -/
def refs (m : CGovernanceManager H) (nHash : UInt256) :
    Option (ℕ × CGovernanceObjectVoteFile H) :=
  (m.mapObjects.lookup nHash).map fun st => (st.addr, st.govobj.fileVotes)

/-- The references, the addresses and the files stay as they are. -/
structure Keeps (m m' : CGovernanceManager H) : Prop where
  mapVoteToObject : m'.mapVoteToObject = m.mapVoteToObject
  nextAddr : m'.nextAddr = m.nextAddr
  refs : ∀ nHash, m'.refs nHash = m.refs nHash

omit [DecidableEq H] in
theorem Keeps.refl (m : CGovernanceManager H) : Keeps m m := ⟨rfl, rfl, fun _ => rfl⟩

omit [DecidableEq H] in
theorem Keeps.trans {m'' : CGovernanceManager H} (h : Keeps m m') (h' : Keeps m' m'') :
    Keeps m m'' :=
  ⟨h'.mapVoteToObject.trans h.mapVoteToObject, h'.nextAddr.trans h.nextAddr,
    fun nHash => (h'.refs nHash).trans (h.refs nHash)⟩

omit [DecidableEq H] in
theorem Keeps.foldl {ι : Type} {f : CGovernanceManager H → ι → CGovernanceManager H}
    (hf : ∀ m i, Keeps m (f m i)) : ∀ (l : List ι) (m : CGovernanceManager H),
      Keeps m (l.foldl f m)
  | [], m => Keeps.refl m
  | i :: l, m => (hf m i).trans (Keeps.foldl hf l (f m i))

omit [DecidableEq H] in
theorem refs_modifyObject (nHash nHash' : UInt256)
    (f : CGovernanceObject H → CGovernanceObject H) :
    (m.modifyObject nHash f).refs nHash' =
      if nHash' = nHash then
        (m.mapObjects.lookup nHash).map fun st => (st.addr, (f st.govobj).fileVotes)
      else m.refs nHash' := by
  unfold refs
  rw [lookup_modifyObject]
  split_ifs with hk
  · rw [Option.map_map]
    rfl
  · rfl

omit [DecidableEq H] in
theorem keeps_modifyObject (nHash : UInt256) {f : CGovernanceObject H → CGovernanceObject H}
    (hf : ∀ o, (f o).fileVotes = o.fileVotes) : Keeps m (m.modifyObject nHash f) := by
  refine ⟨by rw [modifyObject_eq], by rw [modifyObject_eq], fun nHash' => ?_⟩
  rw [refs_modifyObject]
  split_ifs with hk
  · rw [hk, refs]
    simp only [hf]
  · rfl

omit [DecidableEq H] in
theorem keeps_rebuildVoteMaps : Keeps m (m.rebuildVoteMaps env) := by
  unfold rebuildVoteMaps
  cases env.fIndexRebuilt with
  | none => exact Keeps.refl m
  | some renumber =>
    apply Keeps.foldl
    intro m nHash
    apply keeps_modifyObject
    exact fun _ => rfl

omit [DecidableEq H] in
variable (m env) in
theorem keeps_updateCurrentWatchdog (govobj : CGovernanceObject H) :
    Keeps m (m.updateCurrentWatchdog env govobj).2 := by
  unfold updateCurrentWatchdog
  dsimp only
  split_ifs
  · refine (keeps_modifyObject m.nHashWatchdogCurrent ?_).trans ⟨rfl, rfl, fun _ => rfl⟩
    exact fun _ => rfl
  · exact Keeps.refl m

omit [DecidableEq H] in
theorem keeps_expireWatchdogs : Keeps m (m.expireWatchdogs env) := by
  have hstep : ∀ (m : CGovernanceManager H) (e : Sigma fun _ : UInt256 => ℤ),
      Keeps m (m.expireWatchdog env e) := by
    intro m e
    unfold expireWatchdog
    split_ifs
    · refine (keeps_modifyObject e.1 ?_).trans ⟨rfl, rfl, fun _ => rfl⟩
      exact fun _ => rfl
    · exact Keeps.refl m
  unfold expireWatchdogs
  split_ifs
  · exact Keeps.foldl hstep _ m
  · exact Keeps.refl m

omit [DecidableEq H] in
variable (env) in
theorem keeps_cleanTriggers : Keeps m (m.cleanTriggers env) := by
  apply Keeps.foldl
  intro m nHash
  split_ifs
  · exact keeps_modifyObject nHash fun _ => rfl
  · exact Keeps.refl m

omit [DecidableEq H] in
theorem fileVotes_updateSentinelVariables (env : GovernanceEnv) (o : CGovernanceObject H) :
    (o.updateSentinelVariables env).fileVotes = o.fileVotes := by
  unfold CGovernanceObject.updateSentinelVariables
  split_ifs <;> rfl

/-! ### The invariant -/

/-- The references are in order; `R` are the votes that have been taken out of files. -/
structure RefsOk (hash : CTxIn → UInt256 → ℤ → ℤ → ℤ → H) (R : H → ℕ → Prop)
    (m : CGovernanceManager H) : Prop where
  cache : m.mapVoteToObject.Ok
  fresh : ∀ nHash addr file, m.refs nHash = some (addr, file) → addr < m.nextAddr
  distinct : ∀ nHash nHash' addr file file', m.refs nHash = some (addr, file) →
    m.refs nHash' = some (addr, file') → nHash = nHash'
  leads : ∀ v addr, (v, addr) ∈ m.mapVoteToObject.listItems →
    ∃ nHash file, m.refs nHash = some (addr, file) ∧ (file.hasVote v = true ∨ R v addr)
  files : ∀ nHash addr file, m.refs nHash = some (addr, file) → file.Consistent hash

namespace RefsOk

theorem init (R : H → ℕ → Prop) : RefsOk hash R (init : CGovernanceManager H) where
  cache := CacheMap.ok_of _
  fresh := fun _ _ _ h => absurd h (by simp [refs, CGovernanceManager.init])
  distinct := fun _ _ _ _ _ h => absurd h (by simp [refs, CGovernanceManager.init])
  leads := fun _ _ h => absurd h List.not_mem_nil
  files := fun _ _ _ h => absurd h (by simp [refs, CGovernanceManager.init])

theorem mono {R' : H → ℕ → Prop} (h : RefsOk hash R m) (hR : ∀ v addr, R v addr → R' v addr) :
    RefsOk hash R' m :=
  { h with
    leads := fun v addr hmem =>
      let ⟨nHash, file, hrefs, hvote⟩ := h.leads v addr hmem
      ⟨nHash, file, hrefs, hvote.imp_right (hR v addr)⟩ }

theorem keeps (h : RefsOk hash R m) (hk : Keeps m m') : RefsOk hash R m' where
  cache := by rw [hk.mapVoteToObject]; exact h.cache
  fresh := by simpa only [hk.refs, hk.nextAddr] using h.fresh
  distinct := by simpa only [hk.refs] using h.distinct
  leads := by simpa only [hk.refs, hk.mapVoteToObject] using h.leads
  files := by simpa only [hk.refs] using h.files

theorem storeObject (h : RefsOk hash R m) {govobj : CGovernanceObject H}
    (hfree : m.refs govobj.nHash = none) : RefsOk hash R (m.storeObject hash govobj) := by
  have hrefs : ∀ nHash, (m.storeObject hash govobj).refs nHash =
      if nHash = govobj.nHash then some (m.nextAddr, govobj.fileVotes.copy hash)
      else m.refs nHash := by
    intro nHash
    show ((m.mapObjects.insert govobj.nHash _).lookup nHash).map _ = _
    split_ifs with hk
    · rw [hk, AList.lookup_insert]
      rfl
    · rw [AList.lookup_insert_ne hk]
      rfl
  refine ⟨h.cache, ?_, ?_, ?_, ?_⟩
  · intro nHash addr file hl
    rw [hrefs] at hl
    show addr < m.nextAddr + 1
    split_ifs at hl with hk
    · obtain ⟨rfl, rfl⟩ := Prod.mk.inj (Option.some.inj hl)
      exact Nat.lt_succ_self _
    · exact (h.fresh nHash addr file hl).trans (Nat.lt_succ_self _)
  · intro nHash nHash' addr file file' hl hl'
    rw [hrefs] at hl hl'
    split_ifs at hl hl' with hk hk' hk'
    · exact hk.trans hk'.symm
    · obtain ⟨rfl, -⟩ := Prod.mk.inj (Option.some.inj hl)
      exact absurd (h.fresh nHash' _ file' hl') (Nat.lt_irrefl _)
    · obtain ⟨rfl, -⟩ := Prod.mk.inj (Option.some.inj hl')
      exact absurd (h.fresh nHash _ file hl) (Nat.lt_irrefl _)
    · exact h.distinct nHash nHash' addr file file' hl hl'
  · intro v addr hmem
    obtain ⟨nHash, file, hl, hvote⟩ := h.leads v addr hmem
    refine ⟨nHash, file, ?_, hvote⟩
    rw [hrefs, if_neg]
    · exact hl
    · rintro rfl
      rw [hfree] at hl
      exact absurd hl (by simp)
  · intro nHash addr file hl
    rw [hrefs] at hl
    split_ifs at hl with hk
    · obtain ⟨-, rfl⟩ := Prod.mk.inj (Option.some.inj hl)
      exact consistent_copy govobj.fileVotes
    · exact h.files nHash addr file hl

theorem modifyObject (h : RefsOk hash R m) (nHash : UInt256)
    {f : CGovernanceObject H → CGovernanceObject H}
    (hf : ∀ st, m.mapObjects.lookup nHash = some st →
      st.govobj.fileVotes.Consistent hash → (f st.govobj).fileVotes.Consistent hash)
    (hvotes : ∀ st v, m.mapObjects.lookup nHash = some st →
      st.govobj.fileVotes.hasVote v = true →
        (f st.govobj).fileVotes.hasVote v = true ∨ R v st.addr) :
    RefsOk hash R (m.modifyObject nHash f) := by
  -- an object before and after
  have hback : ∀ {k addr file}, (m.modifyObject nHash f).refs k = some (addr, file) →
      ∃ file', m.refs k = some (addr, file') ∧ (file'.Consistent hash → file.Consistent hash) := by
    intro k addr file hl
    rw [refs_modifyObject] at hl
    split_ifs at hl with hk
    · obtain ⟨st, hst, he⟩ := Option.map_eq_some_iff.mp hl
      obtain ⟨rfl, rfl⟩ := Prod.mk.inj he
      exact ⟨st.govobj.fileVotes, by rw [hk, refs, hst]; rfl, hf st hst⟩
    · exact ⟨file, hl, fun hc => hc⟩
  have hsame : (m.modifyObject nHash f).mapVoteToObject = m.mapVoteToObject := by
    rw [modifyObject_eq]
  have hnext : (m.modifyObject nHash f).nextAddr = m.nextAddr := by rw [modifyObject_eq]
  refine ⟨by rw [hsame]; exact h.cache, ?_, ?_, ?_, ?_⟩
  · intro k addr file hl
    obtain ⟨file', hl', -⟩ := hback hl
    rw [hnext]
    exact h.fresh k addr file' hl'
  · intro k k' addr file file' hl hl'
    obtain ⟨file₁, hl₁, -⟩ := hback hl
    obtain ⟨file₂, hl₂, -⟩ := hback hl'
    exact h.distinct k k' addr file₁ file₂ hl₁ hl₂
  · intro v addr hmem
    rw [hsame] at hmem
    obtain ⟨k, file, hl, hvote⟩ := h.leads v addr hmem
    rcases eq_or_ne k nHash with rfl | hk
    · obtain ⟨st, hst, he⟩ := Option.map_eq_some_iff.mp hl
      obtain ⟨rfl, rfl⟩ := Prod.mk.inj he
      refine ⟨k, (f st.govobj).fileVotes, by rw [refs_modifyObject, if_pos rfl, hst]; rfl, ?_⟩
      exact hvote.elim (hvotes st v hst) .inr
    · exact ⟨k, file, by rw [refs_modifyObject, if_neg hk]; exact hl, hvote⟩
  · intro k addr file hl
    obtain ⟨file', hl', hc⟩ := hback hl
    exact hc (h.files k addr file' hl')

theorem note (h : RefsOk hash R m) {nHash : UInt256} {v : H} {addr : ℕ}
    {file : CGovernanceObjectVoteFile H} (hl : m.refs nHash = some (addr, file))
    (hvote : file.hasVote v = true) :
    RefsOk hash R { m with mapVoteToObject := m.mapVoteToObject.insert v addr } where
  cache := h.cache.insert v addr
  fresh := h.fresh
  distinct := h.distinct
  leads := fun v' addr' hmem => by
    rcases CacheMap.mem_insert hmem with he | hold
    · obtain ⟨rfl, rfl⟩ := Prod.mk.inj he
      exact ⟨nHash, file, hl, .inl hvote⟩
    · exact h.leads v' addr' hold
  files := h.files

end RefsOk

/-! ### One operation -/

theorem RefsOk.addGovernanceObject (h : RefsOk hash R m) (env : ManagerEnv)
    (govobj : CGovernanceObject H) :
    RefsOk hash R (m.addGovernanceObject hash env govobj).2.2 := by
  have hfree : (m.mapObjects.lookup govobj.nHash).isSome ≠ true → m.refs govobj.nHash = none := by
    intro hsome
    rw [refs, Option.map_eq_none_iff]
    simpa using hsome
  unfold CGovernanceManager.addGovernanceObject
  split_ifs with hvalid hknown hwatchdog htime
  · exact h
  · exact h
  · exact h
  · have hk := keeps_updateCurrentWatchdog env m govobj
    rcases hw : m.updateCurrentWatchdog env govobj with ⟨fUpdated, m'⟩
    rw [hw] at hk
    cases fUpdated with
    | false => exact h.keeps hk
    | true => exact (h.keeps hk).storeObject ((hk.refs _).trans (hfree hknown))
  · exact h.storeObject (hfree hknown)

theorem RefsOk.vote (h : RefsOk hash R m) {vote : CGovernanceVote} {st : StoredObject H}
    {fRate : Bool} (hst : m.mapObjects.lookup vote.nParentHash = some st)
    {r : CGovernanceObject.VoteResult H}
    (hr : r = st.govobj.processVote hash env.toGovernanceEnv fRate vote)
    (m' : CGovernanceManager H)
    (hm' : Keeps (m.modifyObject vote.nParentHash fun _ => r.govobj) m') :
    RefsOk hash R m' ∧ (r.fOk = true → RefsOk hash R
      { m' with mapVoteToObject := m'.mapVoteToObject.insert (vote.getHash hash) st.addr }) := by
  have hmodified : RefsOk hash R (m.modifyObject vote.nParentHash fun _ => r.govobj) := by
    apply h.modifyObject
    · intro st' hst' hc
      obtain rfl := Option.some.inj (hst.symm.trans hst')
      rw [hr]
      exact CGovernanceObject.consistent_processVote hc
    · intro st' v hst' hv
      obtain rfl := Option.some.inj (hst.symm.trans hst')
      rw [hr]
      exact .inl (CGovernanceObject.hasVote_processVote hv)
  refine ⟨hmodified.keeps hm', fun hok => ?_⟩
  have hl : m'.refs vote.nParentHash = some (st.addr, r.govobj.fileVotes) := by
    rw [hm'.refs, refs_modifyObject, if_pos rfl, hst]
    rfl
  apply (hmodified.keeps hm').note hl
  rw [hr] at hok ⊢
  exact CGovernanceObject.hasVote_of_fOk hok

theorem RefsOk.processVote (h : RefsOk hash R m) (env : ManagerEnv) (vote : CGovernanceVote) :
    RefsOk hash R (m.processVote hash env vote).2.1 := by
  unfold CGovernanceManager.processVote
  dsimp only
  split_ifs
  · exact h
  · cases hst : m.mapObjects.lookup vote.nParentHash with
    | none => exact h.keeps ⟨rfl, rfl, fun _ => rfl⟩
    | some st =>
      dsimp only
      rcases Bool.eq_false_or_eq_true (st.govobj.fCachedDelete || st.govobj.fExpired)
        with hgone | hgone
      · rw [if_pos hgone]
        exact h
      · rw [if_neg (by rw [hgone]; exact Bool.false_ne_true)]
        have hb : RefsOk hash R (m.rebuildVoteMaps env) := h.keeps keeps_rebuildVoteMaps
        generalize m.rebuildVoteMaps env = m' at hb
        cases hst' : m'.mapObjects.lookup vote.nParentHash with
        | none => exact hb
        | some st' =>
          dsimp only
          generalize hr : st'.govobj.processVote hash env.toGovernanceEnv m'.fRateChecksEnabled
            vote = r
          have hkeeps : Keeps (m'.modifyObject vote.nParentHash fun _ => r.govobj)
              (if r.fInvalid = true then
                (m'.modifyObject vote.nParentHash fun _ => r.govobj).addInvalidVote hash vote
              else m'.modifyObject vote.nParentHash fun _ => r.govobj) := by
            split_ifs
            · exact ⟨rfl, rfl, fun _ => rfl⟩
            · exact Keeps.refl _
          obtain ⟨hplain, hnoted⟩ := hb.vote hst' hr.symm _ hkeeps
          rcases Bool.eq_false_or_eq_true r.fOk with hok | hok
          · rw [if_pos hok]
            exact hnoted hok
          · rw [if_neg (by rw [hok]; exact Bool.false_ne_true)]
            exact hplain

/-! ### Votes that are taken out of files -/

/-- What is no longer in the file of an object. -/
def Lost (m m' : CGovernanceManager H) (v : H) (addr : ℕ) : Prop :=
  ∃ nHash file file', m.refs nHash = some (addr, file) ∧ file.hasVote v = true ∧
    m'.refs nHash = some (addr, file') ∧ file'.hasVote v = false

/-- The objects keep their addresses and their files stay consistent. -/
structure Clears (hash : CTxIn → UInt256 → ℤ → ℤ → ℤ → H) (m m' : CGovernanceManager H) :
    Prop where
  mapVoteToObject : m'.mapVoteToObject = m.mapVoteToObject
  nextAddr : m'.nextAddr = m.nextAddr
  addrs : ∀ nHash, (m'.refs nHash).map Prod.fst = (m.refs nHash).map Prod.fst
  files : (∀ nHash addr file, m.refs nHash = some (addr, file) → file.Consistent hash) →
    ∀ nHash addr file, m'.refs nHash = some (addr, file) → file.Consistent hash

theorem clears_clearDirtyObjects : Clears hash m (m.clearDirtyObjects hash env) := by
  unfold clearDirtyObjects
  generalize env.vecDirtyHashes = dirty
  induction dirty generalizing m with
  | nil => exact ⟨rfl, rfl, fun _ => rfl, fun hfiles => hfiles⟩
  | cons nHash dirty ih =>
    obtain ⟨hrefs, hnext, haddrs, hfiles⟩ := ih
      (m := m.modifyObject nHash fun o =>
        { o.clearMasternodeVotes hash env.toGovernanceEnv with fDirtyCache := true })
    refine ⟨hrefs.trans (by rw [modifyObject_eq]), hnext.trans (by rw [modifyObject_eq]),
      fun k => ?_, fun hold => hfiles ?_⟩
    · rw [List.foldl_cons, haddrs, refs_modifyObject]
      split_ifs with hk
      · rw [hk, refs, Option.map_map, Option.map_map]
        rfl
      · rfl
    · intro k addr file hl
      rw [refs_modifyObject] at hl
      split_ifs at hl with hk
      · obtain ⟨st, hst, he⟩ := Option.map_eq_some_iff.mp hl
        obtain ⟨rfl, rfl⟩ := Prod.mk.inj he
        apply CGovernanceObject.consistent_clearMasternodeVotes
        exact hold nHash st.addr _ (by rw [refs, hst]; rfl)
      · exact hold k addr file hl

theorem RefsOk.clears (h : RefsOk hash R m) (hc : Clears hash m m') :
    RefsOk hash (fun v addr => R v addr ∨ Lost m m' v addr) m' := by
  -- every object was there before
  have hback : ∀ {nHash addr file}, m'.refs nHash = some (addr, file) →
      ∃ file', m.refs nHash = some (addr, file') := by
    intro nHash addr file hl
    have haddr := hc.addrs nHash
    rw [hl] at haddr
    obtain ⟨⟨addr', file'⟩, hl', he⟩ := Option.map_eq_some_iff.mp haddr.symm
    obtain rfl : addr' = addr := he
    exact ⟨file', hl'⟩
  refine ⟨by rw [hc.mapVoteToObject]; exact h.cache, ?_, ?_, ?_, hc.files h.files⟩
  · intro nHash addr file hl
    obtain ⟨file', hl'⟩ := hback hl
    rw [hc.nextAddr]
    exact h.fresh nHash addr file' hl'
  · intro nHash nHash' addr file file' hl hl'
    obtain ⟨file₁, hl₁⟩ := hback hl
    obtain ⟨file₂, hl₂⟩ := hback hl'
    exact h.distinct nHash nHash' addr file₁ file₂ hl₁ hl₂
  · intro v addr hmem
    rw [hc.mapVoteToObject] at hmem
    obtain ⟨nHash, file, hl, hvote⟩ := h.leads v addr hmem
    have haddr := hc.addrs nHash
    rw [hl] at haddr
    obtain ⟨⟨addr', file'⟩, hl', he⟩ := Option.map_eq_some_iff.mp haddr
    obtain rfl : addr' = addr := he
    refine ⟨nHash, file', hl', ?_⟩
    rcases hvote with hin | hout
    · cases hhas : file'.hasVote v with
      | true => exact .inl rfl
      | false => exact .inr (.inr ⟨nHash, file, file', hl, hin, hl', hhas⟩)
    · exact .inr (.inl hout)

/-! ### Deletion -/

theorem removeVoteReferences_spec {c : CacheMap H ℕ} (hc : c.Ok) (addr : ℕ) :
    (removeVoteReferences c addr).Ok ∧ ∀ item,
      item ∈ (removeVoteReferences c addr).listItems ↔ item ∈ c.listItems ∧ item.2 ≠ addr := by
  have hloop : ∀ (items : List (H × ℕ)) (c : CacheMap H ℕ), c.Ok →
      (items.foldl (fun c item => if item.2 = addr then c.erase item.1 else c) c).Ok ∧
      ∀ item, item ∈ (items.foldl (fun c item => if item.2 = addr then c.erase item.1 else c)
          c).listItems ↔
        item ∈ c.listItems ∧ ∀ it ∈ items, it.2 = addr → item.1 ≠ it.1 := by
    intro items
    induction items with
    | nil => exact fun c hc => ⟨hc, fun item => by simp⟩
    | cons it items ih =>
      intro c hc
      rw [List.foldl_cons]
      split_ifs with hit
      · obtain ⟨hok, hmem⟩ := ih (c.erase it.1) (hc.erase it.1)
        refine ⟨hok, fun item => ?_⟩
        rw [hmem, hc.mem_erase, List.forall_mem_cons, and_assoc]
        simp [hit]
      · obtain ⟨hok, hmem⟩ := ih c hc
        refine ⟨hok, fun item => ?_⟩
        rw [hmem, List.forall_mem_cons]
        simp [hit]
  obtain ⟨hok, hmem⟩ := hloop c.listItems c hc
  refine ⟨hok, fun item => ?_⟩
  unfold removeVoteReferences
  rw [hmem]
  constructor
  · rintro ⟨hin, hall⟩
    exact ⟨hin, fun haddr => hall item hin haddr rfl⟩
  · rintro ⟨hin, haddr⟩
    refine ⟨hin, fun it hit haddr' hkey => ?_⟩
    have hsame := List.inj_on_of_nodup_map hc.nodup hin hit hkey
    exact haddr (hsame ▸ haddr')

theorem RefsOk.delete (h : RefsOk hash R m) {nHash : UInt256} {st : StoredObject H}
    (hst : m.mapObjects.lookup nHash = some st)
    (mapWatchdogObjects : AList fun _ : UInt256 => ℤ) :
    RefsOk hash R { m with
      mapVoteToObject := removeVoteReferences m.mapVoteToObject st.addr
      mapWatchdogObjects := mapWatchdogObjects
      mapObjects := m.mapObjects.erase nHash } := by
  have hl : m.refs nHash = some (st.addr, st.govobj.fileVotes) := by
    rw [refs, hst]
    rfl
  have hrefs : ∀ k, (({ m with
      mapVoteToObject := removeVoteReferences m.mapVoteToObject st.addr
      mapWatchdogObjects := mapWatchdogObjects
      mapObjects := m.mapObjects.erase nHash } : CGovernanceManager H).refs k) =
      if k = nHash then none else m.refs k := by
    intro k
    show ((m.mapObjects.erase nHash).lookup k).map _ = _
    split_ifs with hk
    · rw [hk, AList.lookup_erase]
      rfl
    · rw [AList.lookup_erase_ne hk]
      rfl
  have hold : ∀ {k addr file}, (if k = nHash then none else m.refs k) = some (addr, file) →
      m.refs k = some (addr, file) := by
    intro k addr file hk
    split_ifs at hk
    exact hk
  obtain ⟨hok, hmem⟩ := removeVoteReferences_spec h.cache st.addr
  refine ⟨hok, ?_, ?_, ?_, ?_⟩
  · intro k addr file hk
    rw [hrefs] at hk
    exact h.fresh k addr file (hold hk)
  · intro k k' addr file file' hk hk'
    rw [hrefs] at hk hk'
    exact h.distinct k k' addr file file' (hold hk) (hold hk')
  · intro v addr hin
    obtain ⟨hin', haddr⟩ := (hmem (v, addr)).mp hin
    obtain ⟨k, file, hk, hvote⟩ := h.leads v addr hin'
    refine ⟨k, file, ?_, hvote⟩
    rw [hrefs, if_neg]
    · exact hk
    · rintro rfl
      rw [hl] at hk
      exact haddr (Prod.mk.inj (Option.some.inj hk)).1.symm
  · intro k addr file hk
    rw [hrefs] at hk
    exact h.files k addr file (hold hk)

theorem RefsOk.cleanObject (h : RefsOk hash R m) (env : ManagerEnv) (nHash : UInt256) :
    RefsOk hash R (m.cleanObject env nHash) := by
  unfold CGovernanceManager.cleanObject
  dsimp only
  have hb := h.keeps (keeps_modifyObject (m := m) nHash (f := fun o =>
    if o.fDirtyCache then o.updateSentinelVariables env.toGovernanceEnv else o) (by
      intro o
      split_ifs
      · exact fileVotes_updateSentinelVariables _ o
      · rfl))
  generalize (m.modifyObject nHash _) = m' at hb
  cases hst : m'.mapObjects.lookup nHash with
  | none => exact hb
  | some st =>
    dsimp only
    generalize hw : (if (st.govobj.fCachedDelete && decide (nHash = m'.nHashWatchdogCurrent)) =
      true then { m' with nHashWatchdogCurrent := 0 } else m') = w
    have hkeeps : Keeps m' w ∧ w.mapObjects = m'.mapObjects := by
      rw [← hw]
      split_ifs
      · exact ⟨⟨rfl, rfl, fun _ => rfl⟩, rfl⟩
      · exact ⟨Keeps.refl m', rfl⟩
    rcases Bool.eq_false_or_eq_true ((st.govobj.fCachedDelete || st.govobj.fExpired) &&
      decide (GOVERNANCE_DELETION_DELAY ≤ env.getAdjustedTime - st.govobj.nDeletionTime))
      with hdelete | hdelete
    · rw [if_pos hdelete]
      exact (hb.keeps hkeeps.1).delete (by rw [hkeeps.2]; exact hst) _
    · rw [if_neg (by rw [hdelete]; exact Bool.false_ne_true)]
      exact hb.keeps hkeeps.1

theorem RefsOk.updateCachesAndClean (h : RefsOk hash R m) (env : ManagerEnv) :
    RefsOk hash (fun v addr => R v addr ∨ Lost (m.expireWatchdogs env)
      ((m.expireWatchdogs env).clearDirtyObjects hash env) v addr)
      (m.updateCachesAndClean hash env) := by
  have hexpired : RefsOk hash R (m.expireWatchdogs env) := h.keeps keeps_expireWatchdogs
  have hclears : Clears hash (m.expireWatchdogs env)
      ((m.expireWatchdogs env).clearDirtyObjects hash env) := clears_clearDirtyObjects
  have hcleared := hexpired.clears hclears
  unfold CGovernanceManager.updateCachesAndClean
  dsimp only
  split_ifs
  · exact hcleared
  · have htriggers := hcleared.keeps (keeps_cleanTriggers env)
    generalize ((m.expireWatchdogs env).clearDirtyObjects hash env).cleanTriggers env = m'
      at htriggers
    have hfold : ∀ (keys : List UInt256) (m : CGovernanceManager H)
        {R : H → ℕ → Prop}, RefsOk hash R m →
        RefsOk hash R (keys.foldl (CGovernanceManager.cleanObject env) m) := by
      intro keys
      induction keys with
      | nil => exact fun m R hm => hm
      | cons nHash keys ih => exact fun m R hm => ih _ (hm.cleanObject env nHash)
    have hstart : RefsOk hash _ { m' with fRateChecksEnabled := false } :=
      htriggers.keeps ⟨rfl, rfl, fun _ => rfl⟩
    exact (hfold _ _ hstart).keeps ⟨rfl, rfl, fun _ => rfl⟩

def LeadsToVotes (m : CGovernanceManager H) (c : CacheMap H ℕ) : Prop :=
  c.Ok ∧ ∀ item ∈ c.listItems, ∃ nHash file,
    m.refs nHash = some (item.2, file) ∧ file.hasVote item.1 = true

theorem LeadsToVotes.insert {nHash : UInt256} {addr : ℕ} {file : CGovernanceObjectVoteFile H}
    (hl : m.refs nHash = some (addr, file)) : ∀ (votes : List CGovernanceVote)
    {c : CacheMap H ℕ}, (∀ vote ∈ votes, file.hasVote (vote.getHash hash) = true) →
    LeadsToVotes m c →
    LeadsToVotes m (votes.foldl (fun c vote => c.insert (vote.getHash hash) addr) c)
  | [], _, _, hc => hc
  | vote :: votes, c, hvotes, hc => by
    apply LeadsToVotes.insert hl votes fun v hv => hvotes v (List.mem_cons_of_mem _ hv)
    refine ⟨hc.1.insert _ _, fun item hitem => ?_⟩
    rcases CacheMap.mem_insert hitem with rfl | hold
    · exact ⟨nHash, file, hl, hvotes vote List.mem_cons_self⟩
    · exact hc.2 item hold

theorem RefsOk.rebuildIndexes (h : RefsOk hash R m) : RefsOk hash R (m.rebuildIndexes hash) := by
  have hall : ∀ (entries : List (Sigma fun _ : UInt256 => StoredObject H)) {c : CacheMap H ℕ},
      (∀ e ∈ entries, e ∈ m.mapObjects.entries) → LeadsToVotes m c →
      LeadsToVotes m (entries.foldl (fun c e => e.2.govobj.fileVotes.listVotes.foldl
        (fun c vote => c.insert (vote.getHash hash) e.2.addr) c) c) := by
    intro entries
    induction entries with
    | nil => exact fun _ hc => hc
    | cons e entries ih =>
      intro c hsub hc
      apply ih fun e he => hsub e (List.mem_cons_of_mem _ he)
      have hst : m.mapObjects.lookup e.1 = some e.2 :=
        AList.mem_lookup_iff.mpr (hsub e List.mem_cons_self)
      have hl : m.refs e.1 = some (e.2.addr, e.2.govobj.fileVotes) := by
        rw [refs, hst]
        rfl
      apply LeadsToVotes.insert hl _ ?_ hc
      intro vote hvote
      exact (h.files _ _ _ hl).hasVote_iff.mpr ⟨vote, hvote, rfl⟩
  obtain ⟨hok, hleads⟩ := hall m.mapObjects.entries (fun _ he => he)
    ⟨CacheMap.Ok.clear (c := m.mapVoteToObject), fun _ hitem => absurd hitem List.not_mem_nil⟩
  refine ⟨hok, h.fresh, h.distinct, fun v addr hmem => ?_, h.files⟩
  obtain ⟨nHash, file, hl, hhas⟩ := hleads (v, addr) hmem
  exact ⟨nHash, file, hl, .inl hhas⟩

/-! ### Runs -/

/-- What happens to the manager. -/
inductive GovernanceEvent (H : Type) where
  | addGovernanceObject (env : ManagerEnv) (govobj : CGovernanceObject H)
  | processVote (env : ManagerEnv) (vote : CGovernanceVote)
  | updateCachesAndClean (env : ManagerEnv)
  | rebuildIndexes

/-- One event. -/
def step (hash : CTxIn → UInt256 → ℤ → ℤ → ℤ → H) (m : CGovernanceManager H) :
    GovernanceEvent H → CGovernanceManager H
  | .addGovernanceObject env govobj => (m.addGovernanceObject hash env govobj).2.2
  | .processVote env vote => (m.processVote hash env vote).2.1
  | .updateCachesAndClean env => m.updateCachesAndClean hash env
  | .rebuildIndexes => m.rebuildIndexes hash

/-- The state after some events. -/
def run (hash : CTxIn → UInt256 → ℤ → ℤ → ℤ → H) (es : List (GovernanceEvent H)) :
    CGovernanceManager H :=
  es.foldl (step hash) CGovernanceManager.init

/-- At some point of the run `ClearMasternodeVotes` has taken a vote out of the file of the
object at this address. -/
def Cleared (hash : CTxIn → UInt256 → ℤ → ℤ → ℤ → H) (es : List (GovernanceEvent H)) (v : H)
    (addr : ℕ) : Prop :=
  ∃ pre env post, es = pre ++ .updateCachesAndClean env :: post ∧
    Lost ((run hash pre).expireWatchdogs env)
      (((run hash pre).expireWatchdogs env).clearDirtyObjects hash env) v addr

theorem RefsOk.step {es : List (GovernanceEvent H)} (h : RefsOk hash (Cleared hash es) (run hash es))
    (e : GovernanceEvent H) :
    RefsOk hash (Cleared hash (es ++ [e])) ((run hash es).step hash e) := by
  have hmono : ∀ v addr, Cleared hash es v addr → Cleared hash (es ++ [e]) v addr := by
    rintro v addr ⟨pre, env, post, rfl, hlost⟩
    exact ⟨pre, env, post ++ [e], by rw [List.append_assoc, List.cons_append], hlost⟩
  cases e with
  | addGovernanceObject env govobj => exact (h.mono hmono).addGovernanceObject env govobj
  | processVote env vote => exact (h.mono hmono).processVote env vote
  | updateCachesAndClean env =>
    apply (h.updateCachesAndClean env).mono
    rintro v addr (hold | hlost)
    · exact hmono v addr hold
    · exact ⟨es, env, [], rfl, hlost⟩
  | rebuildIndexes => exact (h.mono hmono).rebuildIndexes

variable (hash) in
theorem refsOk_run (es : List (GovernanceEvent H)) :
    RefsOk hash (Cleared hash es) (run hash es) := by
  induction es using List.reverseRecOn with
  | nil => exact RefsOk.init _
  | append_singleton es e ih =>
    have hrun : run hash (es ++ [e]) = (run hash es).step hash e := by
      unfold run
      rw [List.foldl_append]
      rfl
    rw [hrun]
    exact ih.step e

/-- **No stale references.**  In every state that the manager can reach, an entry of
`mapVoteToObject` refers to exactly one stored object, whose file has the vote or had it until
`ClearMasternodeVotes` took it out; and every vote file is consistent. -/
theorem references_ok (es : List (GovernanceEvent H)) :
    (∀ v addr, (v, addr) ∈ (run hash es).mapVoteToObject.listItems →
      ∃ nHash st, (run hash es).mapObjects.lookup nHash = some st ∧ st.addr = addr ∧
        (∀ nHash' st', (run hash es).mapObjects.lookup nHash' = some st' → st'.addr = addr →
          nHash' = nHash) ∧
        (st.govobj.fileVotes.hasVote v = true ∨ Cleared hash es v addr)) ∧
    ∀ nHash st, (run hash es).mapObjects.lookup nHash = some st →
      st.govobj.fileVotes.Consistent hash := by
  have h := refsOk_run hash es
  refine ⟨fun v addr hmem => ?_, fun nHash st hst => ?_⟩
  · obtain ⟨nHash, file, hl, hvote⟩ := h.leads v addr hmem
    obtain ⟨st, hst, he⟩ := Option.map_eq_some_iff.mp hl
    obtain ⟨rfl, rfl⟩ := Prod.mk.inj he
    refine ⟨nHash, st, hst, rfl, fun nHash' st' hst' haddr => ?_, hvote⟩
    refine h.distinct nHash' nHash st.addr st'.govobj.fileVotes st.govobj.fileVotes ?_ hl
    rw [refs, hst', ← haddr]
    rfl
  · apply h.files nHash st.addr
    rw [refs, hst]
    rfl

end CGovernanceManager

end Stonecoin
