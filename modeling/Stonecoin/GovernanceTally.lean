/-
The tally of a governance object, and the order of its votes.

For a masternode and a signal `processVote` is a register that refuses older votes and takes
the later arrival of equally old ones (`getInstance_voteAll`).  Hence the tally does not
depend on the order exactly when no masternode has two latest votes with different outcomes
for a signal (`tally_order_free_iff`, `tally_depends_on_order`).
-/
import Stonecoin.LastWriter
import Stonecoin.GovernanceObject

namespace Stonecoin

def vote_instance_t.stamped (voteInstance : vote_instance_t) : ℤ × ℤ :=
  (voteInstance.nCreationTime, voteInstance.eOutcome)

def CGovernanceVote.stamped (vote : CGovernanceVote) : ℤ × ℤ := (vote.nTime, vote.getOutcome)

namespace CGovernanceObject

open LastWriter

variable {H : Type} [DecidableEq H] {hash : CTxIn → UInt256 → ℤ → ℤ → ℤ → H}
  {env : GovernanceEnv} {o o' : CGovernanceObject H} {vote : CGovernanceVote}
  {nMNIndex eSignal : ℤ}

def Supported (eSignal : ℤ) : Prop :=
  eSignal ≠ VOTE_SIGNAL_NONE ∧ eSignal ≤ MAX_SUPPORTED_VOTE_SIGNAL

instance (eSignal : ℤ) : Decidable (Supported eSignal) := inferInstanceAs (Decidable (_ ∧ _))

/-! ### The maps -/

omit [DecidableEq H] in
theorem getRec_setRec (recVote : vote_rec_t) (i : ℤ) :
    (o.setRec nMNIndex recVote).getRec i = if i = nMNIndex then recVote else o.getRec i := by
  show ((o.mapCurrentMNVotes.insert nMNIndex recVote).lookup i).getD ∅ = _
  split_ifs with hi
  · rw [hi, AList.lookup_insert]; rfl
  · rw [AList.lookup_insert_ne hi]; rfl

omit [DecidableEq H] in
theorem getInstance_touch (i s : ℤ) :
    (o.setRec nMNIndex (o.getRec nMNIndex)).getInstance i s = o.getInstance i s := by
  unfold getInstance
  rw [getRec_setRec]
  split_ifs with hi
  · rw [hi]
  · rfl

omit [DecidableEq H] in
theorem getInstance_setInstance (voteInstance : vote_instance_t) (i s : ℤ) :
    (o.setInstance nMNIndex eSignal voteInstance).getInstance i s =
      if i = nMNIndex ∧ s = eSignal then some voteInstance else o.getInstance i s := by
  unfold getInstance setInstance
  rw [getRec_setRec]
  rcases eq_or_ne i nMNIndex with rfl | hi
  · rw [if_pos rfl]
    rcases eq_or_ne s eSignal with rfl | hs
    · rw [AList.lookup_insert, if_pos ⟨rfl, rfl⟩]
    · rw [AList.lookup_insert_ne hs, if_neg (fun h => hs h.2)]
  · rw [if_neg hi, if_neg (fun h => hi h.1)]

/-! ### One vote -/

def instanceOf (o : CGovernanceObject H) (nMNIndex eSignal : ℤ) : vote_instance_t :=
  (o.getInstance nMNIndex eSignal).getD .default

/-- The object when the instance of a vote has been looked up, and made if it was missing. -/
def touch (o : CGovernanceObject H) (nMNIndex eSignal : ℤ) : CGovernanceObject H :=
  (o.setRec nMNIndex (o.getRec nMNIndex)).setInstance nMNIndex eSignal
    (o.instanceOf nMNIndex eSignal)

def record (hash : CTxIn → UInt256 → ℤ → ℤ → ℤ → H) (o : CGovernanceObject H) (nMNIndex : ℤ)
    (vote : CGovernanceVote) : CGovernanceObject H :=
  { (o.touch nMNIndex vote.getSignal).setInstance nMNIndex vote.getSignal
      ⟨vote.getOutcome, (o.instanceOf nMNIndex vote.getSignal).nTime, vote.nTime⟩ with
    fileVotes :=
      if o.fileVotes.hasVote (vote.getHash hash) then o.fileVotes
      else o.fileVotes.addVote hash vote
    fDirtyCache := true }

theorem has_of_isValid (h : env.isValid vote = true) : env.has vote.vinMasternode = true := by
  unfold GovernanceEnv.isValid at h
  split_ifs at h
  cases hinfo : env.getMasternodeInfo vote.vinMasternode.prevout with
  | none => rw [hinfo] at h; exact absurd h (by simp)
  | some key => rw [GovernanceEnv.has, hinfo]; rfl

variable (hash o) in
theorem processVote_unsupported (fRate : Bool)
    (hindex : 0 ≤ env.getMasternodeIndex vote.vinMasternode.prevout)
    (hs : ¬ Supported vote.getSignal) :
    (processVote hash env fRate o vote).fOk = false ∧
    (processVote hash env fRate o vote).govobj =
      o.setRec (env.getMasternodeIndex vote.vinMasternode.prevout)
        (o.getRec (env.getMasternodeIndex vote.vinMasternode.prevout)) := by
  unfold processVote
  dsimp only
  rw [if_neg (Int.not_lt.mpr hindex)]
  rcases eq_or_ne vote.getSignal VOTE_SIGNAL_NONE with hnone | hnone
  · rw [if_pos hnone]
    exact ⟨rfl, rfl⟩
  · have hmax : MAX_SUPPORTED_VOTE_SIGNAL < vote.getSignal :=
      Int.not_le.mp fun h => hs ⟨hnone, h⟩
    rw [if_neg hnone, if_pos hmax]
    exact ⟨rfl, rfl⟩

theorem processVote_supported {fRate : Bool}
    (hindex : 0 ≤ env.getMasternodeIndex vote.vinMasternode.prevout)
    (hs : Supported vote.getSignal) :
    processVote hash env fRate o vote =
      (let nMNIndex := env.getMasternodeIndex vote.vinMasternode.prevout
      let voteInstance := o.instanceOf nMNIndex vote.getSignal
      let touched := o.touch nMNIndex vote.getSignal
      if vote.nTime < voteInstance.nCreationTime then ⟨false, touched, some ⟨.none, 0⟩, false⟩
      else if fRate && env.getTime - voteInstance.nTime < GOVERNANCE_UPDATE_MIN then
        ⟨false, touched, some ⟨.temporaryError, 0⟩, false⟩
      else if !env.isValid vote then ⟨false, touched, some ⟨.permanentError, 20⟩, true⟩
      else if !env.has vote.vinMasternode then
        ⟨false, touched, some ⟨.permanentError, 0⟩, false⟩
      else ⟨true, o.record hash nMNIndex vote, none, false⟩) := by
  unfold processVote
  dsimp only
  rw [if_neg (Int.not_lt.mpr hindex), if_neg hs.1, if_neg (Int.not_lt.mpr hs.2),
    getInstance_touch]
  rfl

omit [DecidableEq H] in
@[simp] theorem getInstance_touched (i s j t : ℤ) :
    (o.touch i s).getInstance j t
      = if j = i ∧ t = s then some (o.instanceOf i s) else o.getInstance j t := by
  rw [touch, getInstance_setInstance, getInstance_touch]

theorem getInstance_record (i j t : ℤ) :
    (o.record hash i vote).getInstance j t =
      if j = i ∧ t = vote.getSignal then
        some ⟨vote.getOutcome, (o.instanceOf i vote.getSignal).nTime, vote.nTime⟩
      else o.getInstance j t := by
  show ((o.touch i vote.getSignal).setInstance i vote.getSignal _).getInstance j t = _
  rw [getInstance_setInstance, getInstance_touched]
  split_ifs <;> rfl

def write (voteInstance : vote_instance_t) (vote : CGovernanceVote) : vote_instance_t :=
  if vote.nTime < voteInstance.nCreationTime then voteInstance
  else ⟨vote.getOutcome, voteInstance.nTime, vote.nTime⟩

/-- The vote is valid and its masternode is known and has an index. -/
def Votes (env : GovernanceEnv) (vote : CGovernanceVote) : Prop :=
  0 ≤ env.getMasternodeIndex vote.vinMasternode.prevout ∧ env.isValid vote = true

def IsFor (env : GovernanceEnv) (nMNIndex eSignal : ℤ) (vote : CGovernanceVote) : Prop :=
  env.getMasternodeIndex vote.vinMasternode.prevout = nMNIndex ∧ vote.getSignal = eSignal

instance (nMNIndex eSignal : ℤ) : DecidablePred (IsFor env nMNIndex eSignal) :=
  fun _ => inferInstanceAs (Decidable (_ ∧ _))

theorem processVote_votes (hv : Votes env vote) (hs : Supported vote.getSignal) :
    (processVote hash env false o vote).govobj =
      if vote.nTime < (o.instanceOf (env.getMasternodeIndex vote.vinMasternode.prevout)
          vote.getSignal).nCreationTime then
        o.touch (env.getMasternodeIndex vote.vinMasternode.prevout) vote.getSignal
      else o.record hash (env.getMasternodeIndex vote.vinMasternode.prevout) vote := by
  rw [processVote_supported hv.1 hs]
  dsimp only
  rw [Bool.false_and, if_neg Bool.false_ne_true, hv.2, has_of_isValid hv.2]
  rw [apply_ite VoteResult.govobj]
  rfl

variable (hash o) in
theorem getInstance_processVote (hv : Votes env vote) (i s : ℤ) :
    (processVote hash env false o vote).govobj.getInstance i s =
      if Supported s ∧ IsFor env i s vote then some (write (o.instanceOf i s) vote)
      else o.getInstance i s := by
  rcases Decidable.em (Supported vote.getSignal) with hs | hs
  · rw [processVote_votes hv hs]
    rcases Decidable.em (IsFor env i s vote) with hfor | hfor
    · obtain ⟨rfl, rfl⟩ := hfor
      rw [if_pos (⟨hs, rfl, rfl⟩ : Supported _ ∧ IsFor env _ _ vote), write]
      rcases Int.lt_or_le vote.nTime (o.instanceOf
        (env.getMasternodeIndex vote.vinMasternode.prevout) vote.getSignal).nCreationTime
        with hold | hnew
      · rw [if_pos hold, if_pos hold, getInstance_touched, if_pos ⟨rfl, rfl⟩]
      · rw [if_neg (Int.not_lt.mpr hnew), if_neg (Int.not_lt.mpr hnew), getInstance_record,
          if_pos ⟨rfl, rfl⟩]
    · have hne : ¬ (i = env.getMasternodeIndex vote.vinMasternode.prevout ∧
          s = vote.getSignal) := fun h => hfor ⟨h.1.symm, h.2.symm⟩
      rw [if_neg (fun h : Supported s ∧ _ => hfor h.2), apply_ite (fun o => getInstance o i s),
        getInstance_touched, getInstance_record, if_neg hne, if_neg hne, ite_self]
  · rw [(processVote_unsupported _ _ _ hv.1 hs).2, getInstance_touch, if_neg]
    rintro ⟨hs', -, rfl⟩
    exact hs hs'

/-! ### Many votes -/

/-- The votes are processed one after the other, without rate checks. -/
def voteAll (hash : CTxIn → UInt256 → ℤ → ℤ → ℤ → H) (env : GovernanceEnv)
    (o : CGovernanceObject H) (votes : List CGovernanceVote) : CGovernanceObject H :=
  votes.foldl (fun o vote => (processVote hash env false o vote).govobj) o

def votesFor (env : GovernanceEnv) (nMNIndex eSignal : ℤ) (votes : List CGovernanceVote) :
    List (ℤ × ℤ) :=
  (votes.filter (IsFor env nMNIndex eSignal)).map CGovernanceVote.stamped

theorem stamped_write (voteInstance : vote_instance_t) :
    (write voteInstance vote).stamped = keepLast voteInstance.stamped vote.stamped := by
  unfold write keepLast vote_instance_t.stamped CGovernanceVote.stamped
  dsimp only
  split_ifs <;> rfl

variable (hash) in
/-- **Many votes**: the instance of a masternode and a supported signal is the register that
its votes have been written to. -/
theorem instanceOf_voteAll (i : ℤ) {s : ℤ} (hs : Supported s) :
    ∀ {votes : List CGovernanceVote} {o : CGovernanceObject H}, (∀ v ∈ votes, Votes env v) →
      ((voteAll hash env o votes).instanceOf i s).stamped
        = (votesFor env i s votes).foldl keepLast (o.instanceOf i s).stamped
  | [], _, _ => rfl
  | vote :: votes, o, hv => by
    have hstep := getInstance_processVote hash o (hv vote (by simp)) i s
    have ih := instanceOf_voteAll i (o := (processVote hash env false o vote).govobj) hs
      fun v hmem => hv v (List.mem_cons_of_mem _ hmem)
    show ((voteAll hash env _ votes).instanceOf i s).stamped = _
    rw [ih]
    rcases Decidable.em (IsFor env i s vote) with hfor | hfor
    · rw [if_pos ⟨hs, hfor⟩] at hstep
      have hcons : votesFor env i s (vote :: votes) = vote.stamped :: votesFor env i s votes := by
        simp [votesFor, hfor]
      rw [hcons, List.foldl_cons, ← stamped_write, instanceOf, hstep]
      rfl
    · rw [if_neg (fun h : Supported s ∧ _ => hfor h.2)] at hstep
      have hcons : votesFor env i s (vote :: votes) = votesFor env i s votes := by
        simp [votesFor, hfor]
      rw [hcons, instanceOf, hstep]
      rfl

theorem getInstance_voteAll_isSome (i s : ℤ) :
    ∀ {votes : List CGovernanceVote} {o : CGovernanceObject H}, (∀ v ∈ votes, Votes env v) →
      ((voteAll hash env o votes).getInstance i s).isSome
        = ((o.getInstance i s).isSome ||
            decide (Supported s ∧ ∃ v ∈ votes, IsFor env i s v))
  | [], o, _ => by simp [voteAll]
  | vote :: votes, o, hv => by
    have hstep := getInstance_processVote hash o (hv vote (by simp)) i s
    show ((voteAll hash env _ votes).getInstance i s).isSome = _
    rw [getInstance_voteAll_isSome i s fun v hmem => hv v (List.mem_cons_of_mem _ hmem), hstep]
    rcases Decidable.em (Supported s ∧ IsFor env i s vote) with hfor | hfor
    · simp [hfor]
    · rw [if_neg hfor]
      congr 1
      rw [decide_eq_decide]
      constructor
      · rintro ⟨hs, v, hmem, hv'⟩
        exact ⟨hs, v, List.mem_cons_of_mem _ hmem, hv'⟩
      · rintro ⟨hs, v, hmem, hv'⟩
        rcases List.mem_cons.mp hmem with rfl | hmem
        · exact absurd ⟨hs, hv'⟩ hfor
        · exact ⟨hs, v, hmem, hv'⟩

theorem getInstance_voteAll_unsupported (i : ℤ) {s : ℤ} (hs : ¬ Supported s) :
    ∀ {votes : List CGovernanceVote} {o : CGovernanceObject H}, (∀ v ∈ votes, Votes env v) →
      (voteAll hash env o votes).getInstance i s = o.getInstance i s
  | [], _, _ => rfl
  | vote :: votes, o, hv => by
    show (voteAll hash env _ votes).getInstance i s = _
    rw [getInstance_voteAll_unsupported i hs fun v hmem => hv v (List.mem_cons_of_mem _ hmem),
      getInstance_processVote _ _ (hv vote (by simp)), if_neg (fun h => hs h.1)]

/-! ### The tally -/

def outcome (o : CGovernanceObject H) (nMNIndex eSignal : ℤ) : Option ℤ :=
  (o.getInstance nMNIndex eSignal).map (·.eOutcome)

/-- The flags that `UpdateSentinelVariables` sets. -/
def flags (o : CGovernanceObject H) : Bool × Bool × Bool × Bool :=
  (o.fCachedFunding, o.fCachedValid, o.fCachedDelete, o.fCachedEndorsed)

omit [DecidableEq H] in
theorem countMatchingVotes_eq (s e : ℤ) :
    o.countMatchingVotes s e
      = ((o.mapCurrentMNVotes.keys.filter fun i => o.outcome i s = some e).length : ℤ) := by
  unfold countMatchingVotes
  rw [AList.keys, List.keys, List.filter_map, List.length_map, ← List.countP_eq_length_filter]
  congr 1
  apply List.countP_congr
  intro it hit
  have hlookup : o.mapCurrentMNVotes.lookup it.1 = some it.2 := AList.mem_lookup_iff.mpr hit
  show _ ↔ decide (o.outcome it.1 s = some e) = true
  rw [outcome, getInstance, getRec, hlookup, Option.getD_some]
  cases it.2.lookup s with
  | none => simp
  | some voteInstance => simp

omit [DecidableEq H] in
theorem mem_keys_of_outcome {i s e : ℤ} (h : o.outcome i s = some e) :
    i ∈ o.mapCurrentMNVotes.keys := by
  rw [← AList.mem_keys, ← AList.lookup_isSome]
  cases hrec : o.mapCurrentMNVotes.lookup i with
  | some recVote => rfl
  | none =>
    rw [outcome, getInstance, getRec, hrec] at h
    exact absurd h (by simp)

omit [DecidableEq H] in
theorem countMatchingVotes_congr (h : ∀ i s, o.outcome i s = o'.outcome i s) (s e : ℤ) :
    o.countMatchingVotes s e = o'.countMatchingVotes s e := by
  rw [countMatchingVotes_eq, countMatchingVotes_eq]
  congr 1
  apply List.Perm.length_eq
  rw [List.perm_ext_iff_of_nodup (o.mapCurrentMNVotes.keys_nodup.filter _)
    (o'.mapCurrentMNVotes.keys_nodup.filter _)]
  intro i
  rw [List.mem_filter, List.mem_filter, h i s]
  constructor
  · rintro ⟨-, he⟩
    exact ⟨mem_keys_of_outcome (of_decide_eq_true he), he⟩
  · rintro ⟨-, he⟩
    exact ⟨mem_keys_of_outcome ((h i s).trans (of_decide_eq_true he)), he⟩

/-- Two objects have the same tally: outcomes, counts, and flags when these are updated. -/
structure SameTally (env : GovernanceEnv) (o o' : CGovernanceObject H) : Prop where
  outcome : ∀ i s, o.outcome i s = o'.outcome i s
  yes : ∀ s, o.getYesCount s = o'.getYesCount s
  no : ∀ s, o.getNoCount s = o'.getNoCount s
  abstain : ∀ s, o.getAbstainCount s = o'.getAbstainCount s
  flags : (o.updateSentinelVariables env).flags = (o'.updateSentinelVariables env).flags

omit [DecidableEq H] in
theorem sameTally_of_outcome (h : ∀ i s, o.outcome i s = o'.outcome i s)
    (hflags : o.flags = o'.flags) : SameTally env o o' := by
  have hyes : ∀ s, o.getYesCount s = o'.getYesCount s :=
    fun s => countMatchingVotes_congr h s _
  have hno : ∀ s, o.getNoCount s = o'.getNoCount s :=
    fun s => countMatchingVotes_congr h s _
  refine ⟨h, hyes, hno, fun s => countMatchingVotes_congr h s _, ?_⟩
  unfold updateSentinelVariables
  split_ifs
  · exact hflags
  · have hdelete : o.fCachedDelete = o'.fCachedDelete := congrArg (fun f => f.2.2.1) hflags
    simp only [flags, getAbsoluteYesCount, getAbsoluteNoCount, hyes, hno, hdelete]
    congr!

theorem flags_processVote {fRate : Bool} :
    (processVote hash env fRate o vote).govobj.flags = o.flags := by
  unfold processVote
  dsimp only
  split_ifs <;> rfl

theorem flags_voteAll : ∀ {votes : List CGovernanceVote} {o : CGovernanceObject H},
    (voteAll hash env o votes).flags = o.flags
  | [], _ => rfl
  | vote :: votes, o => by
    show (voteAll hash env _ votes).flags = _
    rw [flags_voteAll, flags_processVote]

/-- No masternode has two latest votes with different outcomes for a signal, unless the object
has a newer one. -/
def OneLatest (env : GovernanceEnv) (o : CGovernanceObject H) (votes : List CGovernanceVote) :
    Prop :=
  ∀ i s, Supported s → ∀ v ∈ votes, IsFor env i s v → ∀ w ∈ votes, IsFor env i s w →
    v.nTime = w.nTime → (∀ u ∈ votes, IsFor env i s u → u.nTime ≤ v.nTime) →
    (o.instanceOf i s).nCreationTime ≤ v.nTime → v.getOutcome = w.getOutcome

omit [DecidableEq H] in
theorem outcome_eq {i s : ℤ} (h : (o.getInstance i s).isSome = true) :
    o.outcome i s = some (o.instanceOf i s).eOutcome := by
  obtain ⟨voteInstance, he⟩ := Option.isSome_iff_exists.mp h
  rw [outcome, instanceOf, he]
  rfl

theorem outcome_voteAll_congr {us ws : List CGovernanceVote} (hmem : ∀ v, v ∈ us ↔ v ∈ ws)
    (hv : ∀ v ∈ us, Votes env v) (hone : OneLatest env o us) (i s : ℤ) :
    (voteAll hash env o us).outcome i s = (voteAll hash env o ws).outcome i s := by
  have hv' : ∀ v ∈ ws, Votes env v := fun v h => hv v ((hmem v).mpr h)
  rcases Decidable.em (Supported s) with hs | hs
  · have hfor : ∀ x, x ∈ votesFor env i s us ↔ x ∈ votesFor env i s ws := by
      intro x
      simp only [votesFor, List.mem_map, List.mem_filter, hmem]
    have hregister := keepLast_foldl_eq (r := (o.instanceOf i s).stamped) hfor ?_
    · rw [← instanceOf_voteAll hash i hs hv, ← instanceOf_voteAll hash i hs hv'] at hregister
      have hsome : ((voteAll hash env o us).getInstance i s).isSome
          = ((voteAll hash env o ws).getInstance i s).isSome := by
        rw [getInstance_voteAll_isSome i s hv, getInstance_voteAll_isSome i s hv']
        simp only [hmem]
      cases hus : ((voteAll hash env o us).getInstance i s).isSome with
      | true =>
        rw [outcome_eq hus, outcome_eq (hsome ▸ hus)]
        exact congrArg some hregister
      | false =>
        have hnone := Option.not_isSome_iff_eq_none.mp (Bool.eq_false_iff.mp hus)
        have hnone' := Option.not_isSome_iff_eq_none.mp (Bool.eq_false_iff.mp (hsome ▸ hus))
        rw [outcome, outcome, hnone, hnone']
    · rintro v' w' ⟨hv₁, hall⟩ ⟨hw₁, hall'⟩ hr
      obtain ⟨v, hvmem, rfl⟩ := List.mem_map.mp hv₁
      obtain ⟨w, hwmem, rfl⟩ := List.mem_map.mp hw₁
      have htime : v.nTime = w.nTime := le_antisymm (hall' _ hv₁) (hall _ hw₁)
      obtain ⟨hvus, hvfor⟩ := List.mem_filter.mp hvmem
      obtain ⟨hwus, hwfor⟩ := List.mem_filter.mp hwmem
      refine hone i s hs v hvus (of_decide_eq_true hvfor) w hwus (of_decide_eq_true hwfor) htime
        (fun u hu hufor => ?_) hr
      exact hall _ (List.mem_map.mpr ⟨u, List.mem_filter.mpr ⟨hu, decide_eq_true hufor⟩, rfl⟩)
  · rw [outcome, outcome, getInstance_voteAll_unsupported i hs hv,
      getInstance_voteAll_unsupported i hs hv']

theorem outcome_voteAll_last {votes : List CGovernanceVote} {v : CGovernanceVote} {i s : ℤ}
    (hv : ∀ v ∈ votes, Votes env v) (hmem : v ∈ votes) (hs : Supported s)
    (hfor : IsFor env i s v) (hall : ∀ u ∈ votes, IsFor env i s u → u.nTime ≤ v.nTime)
    (hr : (o.instanceOf i s).nCreationTime ≤ v.nTime) :
    (voteAll hash env o (votes.erase v ++ [v])).outcome i s = some v.getOutcome := by
  have hv' : ∀ u ∈ votes.erase v ++ [v], Votes env u := by
    intro u hu
    rcases List.mem_append.mp hu with hu | hu
    · exact hv u (List.mem_of_mem_erase hu)
    · rw [List.mem_singleton.mp hu]
      exact hv v hmem
  have hregister := instanceOf_voteAll hash (o := o) i hs hv'
  have hlast : votesFor env i s (votes.erase v ++ [v])
      = votesFor env i s (votes.erase v) ++ [v.stamped] := by
    simp [votesFor, hfor]
  rw [hlast, keepLast_foldl_concat hr] at hregister
  · have hsome : ((voteAll hash env o (votes.erase v ++ [v])).getInstance i s).isSome = true := by
      rw [getInstance_voteAll_isSome i s hv', Bool.or_eq_true, decide_eq_true_eq]
      exact .inr ⟨hs, v, by simp, hfor⟩
    rw [outcome_eq hsome]
    exact congrArg (fun r : ℤ × ℤ => some r.2) hregister
  · intro x hx
    obtain ⟨u, hu, rfl⟩ := List.mem_map.mp hx
    obtain ⟨hu, hufor⟩ := List.mem_filter.mp hu
    exact hall u (List.mem_of_mem_erase hu) (of_decide_eq_true hufor)

/-- **The tally and the order of the votes.** -/
theorem tally_order_free_iff {votes : List CGovernanceVote} (hv : ∀ v ∈ votes, Votes env v) :
    (∀ us ws : List CGovernanceVote, us.Perm votes → ws.Perm votes →
      SameTally env (voteAll hash env o us) (voteAll hash env o ws)) ↔
      OneLatest env o votes := by
  constructor
  · intro h i s hs v hvmem hvfor w hwmem hwfor htime hall hr
    have hperm : ∀ x ∈ votes, (votes.erase x ++ [x]).Perm votes := fun x hx =>
      List.perm_append_comm.trans (List.perm_cons_erase hx).symm
    have hsame := (h _ _ (hperm v hvmem) (hperm w hwmem)).outcome i s
    rw [outcome_voteAll_last hv hvmem hs hvfor hall hr,
      outcome_voteAll_last hv hwmem hs hwfor (htime ▸ hall) (htime ▸ hr)] at hsame
    exact Option.some.inj hsame
  · intro hone us ws hus hws
    have hone' : OneLatest env o us := by
      intro i s hs v hvmem hvfor w hwmem hwfor htime hall
      exact hone i s hs v (hus.mem_iff.mp hvmem) hvfor w (hus.mem_iff.mp hwmem) hwfor htime
        fun u hu => hall u (hus.mem_iff.mpr hu)
    apply sameTally_of_outcome
    · exact outcome_voteAll_congr (fun v => hus.mem_iff.trans hws.mem_iff.symm)
        (fun v hmem => hv v (hus.mem_iff.mp hmem)) hone'
    · rw [flags_voteAll, flags_voteAll]

/-! ### Votes of one second -/

/-- A node that knows all masternodes and takes every signature that is there. -/
def openEnv : GovernanceEnv where
  getTime := 1500000000
  getAdjustedTime := 1500000000
  getMasternodeIndex := fun out => out.n
  getMasternodeVin := fun _ => none
  getMasternodeInfo := fun _ => some []
  verifyMessage := fun _ vchSig _ _ _ _ _ => !vchSig.isEmpty
  countEnabled := 10
  nGovernanceMinQuorum := 1

def fundingVote (n : ℕ) (nVoteOutcome : ℤ) : CGovernanceVote where
  nVoteSignal := VOTE_SIGNAL_FUNDING
  vinMasternode := ⟨⟨1, n⟩, [], 0⟩
  nParentHash := 5
  nVoteOutcome := nVoteOutcome
  nTime := 1490000000
  vchSig := [7]

/-- Hashes that do not collide. -/
def voteTuple (vin : CTxIn) (nParentHash : UInt256) (nVoteSignal nVoteOutcome nTime : ℤ) :
    CTxIn × UInt256 × ℤ × ℤ × ℤ :=
  (vin, nParentHash, nVoteSignal, nVoteOutcome, nTime)

/-- The object without votes. -/
def object5 : CGovernanceObject (CTxIn × UInt256 × ℤ × ℤ × ℤ) := received 5 1 1480000000

/-- Two masternodes vote yes and no. -/
theorem tally_order_free_iff_two :
    (∀ us ws : List CGovernanceVote,
      us.Perm [fundingVote 0 VOTE_OUTCOME_YES, fundingVote 1 VOTE_OUTCOME_NO] →
      ws.Perm [fundingVote 0 VOTE_OUTCOME_YES, fundingVote 1 VOTE_OUTCOME_NO] →
      SameTally openEnv (voteAll voteTuple openEnv object5 us)
        (voteAll voteTuple openEnv object5 ws)) ↔
      OneLatest openEnv object5
        [fundingVote 0 VOTE_OUTCOME_YES, fundingVote 1 VOTE_OUTCOME_NO] := by
  apply tally_order_free_iff
  intro v hv
  obtain rfl | rfl : v = _ ∨ v = _ := by simpa using hv
  · exact ⟨by decide, by decide⟩
  · exact ⟨by decide, by decide⟩

/-- **The tally depends on the order** of two votes of one masternode and one second: the
later arrival is counted, and the object is flagged for funding or not. -/
theorem tally_depends_on_order :
    (∀ v ∈ [fundingVote 0 VOTE_OUTCOME_YES, fundingVote 0 VOTE_OUTCOME_NO], Votes openEnv v) ∧
      ((voteAll voteTuple openEnv object5 [fundingVote 0 VOTE_OUTCOME_YES,
        fundingVote 0 VOTE_OUTCOME_NO]).updateSentinelVariables openEnv).fCachedFunding = false ∧
      ((voteAll voteTuple openEnv object5 [fundingVote 0 VOTE_OUTCOME_NO,
        fundingVote 0 VOTE_OUTCOME_YES]).updateSentinelVariables openEnv).fCachedFunding = true ∧
      ¬ SameTally openEnv
        (voteAll voteTuple openEnv object5 [fundingVote 0 VOTE_OUTCOME_YES,
          fundingVote 0 VOTE_OUTCOME_NO])
        (voteAll voteTuple openEnv object5 [fundingVote 0 VOTE_OUTCOME_NO,
          fundingVote 0 VOTE_OUTCOME_YES]) := by
  refine ⟨fun v hv => ?_, by decide +kernel, by decide +kernel, fun h => ?_⟩
  · obtain rfl | rfl : v = _ ∨ v = _ := by simpa using hv
    · exact ⟨by decide, by decide⟩
    · exact ⟨by decide, by decide⟩
  · exact absurd (h.yes VOTE_SIGNAL_FUNDING) (by decide +kernel)

end CGovernanceObject

end Stonecoin
