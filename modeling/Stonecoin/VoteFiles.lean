/-
The three views that a vote file keeps of its votes: a list, an index by hash and a count.
-/
import Stonecoin.GovernanceTally

namespace Stonecoin

variable {H : Type} [DecidableEq H] {hash : CTxIn → UInt256 → ℤ → ℤ → ℤ → H}

namespace CGovernanceObjectVoteFile

/-- List, index and count describe the same votes, and no two votes have one hash. -/
structure Consistent (hash : CTxIn → UInt256 → ℤ → ℤ → ℤ → H)
    (f : CGovernanceObjectVoteFile H) : Prop where
  nodup : (f.listVotes.map (CGovernanceVote.getHash hash)).Nodup
  size : f.nMemoryVotes = f.listVotes.length
  index : ∀ nHash vote, f.mapVoteIndex.lookup nHash = some vote ↔
    vote ∈ f.listVotes ∧ vote.getHash hash = nHash

theorem consistent_empty : Consistent hash (empty : CGovernanceObjectVoteFile H) where
  nodup := List.nodup_nil
  size := rfl
  index := by simp [empty]

namespace Consistent

variable {f : CGovernanceObjectVoteFile H} {vote : CGovernanceVote}

theorem hasVote_iff (h : Consistent hash f) {nHash : H} :
    f.hasVote nHash = true ↔ ∃ vote ∈ f.listVotes, vote.getHash hash = nHash := by
  rw [hasVote, Option.isSome_iff_exists]
  simp only [h.index]

theorem addVote (h : Consistent hash f) (hnew : f.hasVote (vote.getHash hash) = false) :
    Consistent hash (f.addVote hash vote) := by
  have hfresh : ∀ w ∈ f.listVotes, w.getHash hash ≠ vote.getHash hash := by
    intro w hw he
    have hhas := h.hasVote_iff.mpr ⟨w, hw, he⟩
    rw [hnew] at hhas
    exact Bool.false_ne_true hhas
  refine ⟨?_, ?_, ?_⟩
  · show ((vote :: f.listVotes).map (CGovernanceVote.getHash hash)).Nodup
    rw [List.map_cons, List.nodup_cons]
    refine ⟨fun hmem => ?_, h.nodup⟩
    obtain ⟨w, hw, he⟩ := List.mem_map.mp hmem
    exact hfresh w hw he
  · show f.nMemoryVotes + 1 = ((vote :: f.listVotes).length : ℤ)
    rw [h.size, List.length_cons]
    rfl
  · intro nHash w
    show (f.mapVoteIndex.insert (vote.getHash hash) vote).lookup nHash = some w ↔
      w ∈ vote :: f.listVotes ∧ _
    rcases eq_or_ne nHash (vote.getHash hash) with rfl | hne
    · rw [AList.lookup_insert]
      constructor
      · rintro ⟨⟩
        exact ⟨List.mem_cons_self, rfl⟩
      · rintro ⟨hmem, he⟩
        rcases List.mem_cons.mp hmem with rfl | hmem
        · rfl
        · exact absurd he (hfresh w hmem)
    · rw [AList.lookup_insert_ne hne, h.index, List.mem_cons]
      constructor
      · exact fun ⟨hmem, he⟩ => ⟨.inr hmem, he⟩
      · rintro ⟨rfl | hmem, he⟩
        · exact absurd he.symm hne
        · exact ⟨hmem, he⟩

end Consistent

/-! ### Removing the votes of a masternode -/

theorem listVotes_removeLoop (vinMasternode : CTxIn) : ∀ (votes : List CGovernanceVote) (n : ℤ)
    (index : AList fun _ : H => CGovernanceVote),
    (removeLoop hash vinMasternode n index votes).listVotes =
      votes.filter fun vote => decide (vote.vinMasternode ≠ vinMasternode)
  | [], _, _ => rfl
  | vote :: votes, n, index => by
    unfold removeLoop
    split_ifs with hvin
    · rw [listVotes_removeLoop, List.filter_cons_of_neg (by simpa using hvin)]
    · rw [List.filter_cons_of_pos (by simpa using hvin)]
      show vote :: (removeLoop hash vinMasternode n index votes).listVotes = _
      rw [listVotes_removeLoop]

variable (hash) in
theorem nMemoryVotes_removeLoop (vinMasternode : CTxIn) : ∀ (votes : List CGovernanceVote) (n : ℤ)
    (index : AList fun _ : H => CGovernanceVote),
    (removeLoop hash vinMasternode n index votes).nMemoryVotes + votes.length =
      n + ((removeLoop hash vinMasternode n index votes).listVotes.length : ℕ)
  | [], _, _ => rfl
  | vote :: votes, n, index => by
    unfold removeLoop
    split_ifs with hvin
    · have ih := nMemoryVotes_removeLoop vinMasternode votes (n - 1)
        (index.erase (vote.getHash hash))
      rw [List.length_cons]
      omega
    · have ih := nMemoryVotes_removeLoop vinMasternode votes n index
      show (removeLoop hash vinMasternode n index votes).nMemoryVotes + ((votes.length + 1 : ℕ) : ℤ)
        = n + (((removeLoop hash vinMasternode n index votes).listVotes.length + 1 : ℕ) : ℤ)
      omega

theorem lookup_removeLoop (vinMasternode : CTxIn) (nHash : H) (w : CGovernanceVote) :
    ∀ (votes : List CGovernanceVote) (n : ℤ) (index : AList fun _ : H => CGovernanceVote),
    (removeLoop hash vinMasternode n index votes).mapVoteIndex.lookup nHash = some w ↔
      index.lookup nHash = some w ∧
        ∀ vote ∈ votes, vote.vinMasternode = vinMasternode → vote.getHash hash ≠ nHash
  | [], _, _ => by simp [removeLoop]
  | vote :: votes, n, index => by
    unfold removeLoop
    split_ifs with hvin
    · rw [lookup_removeLoop vinMasternode nHash w votes]
      rcases eq_or_ne nHash (vote.getHash hash) with rfl | hne
      · rw [AList.lookup_erase]
        simp [hvin]
      · rw [AList.lookup_erase_ne hne, List.forall_mem_cons]
        simp [hvin, hne.symm]
    · show (removeLoop hash vinMasternode n index votes).mapVoteIndex.lookup nHash = some w ↔ _
      rw [lookup_removeLoop vinMasternode nHash w votes, List.forall_mem_cons]
      simp [hvin]

theorem Consistent.removeVotesFromMasternode {f : CGovernanceObjectVoteFile H}
    (h : Consistent hash f) (vinMasternode : CTxIn) :
    Consistent hash (f.removeVotesFromMasternode hash vinMasternode) := by
  unfold CGovernanceObjectVoteFile.removeVotesFromMasternode
  refine ⟨?_, ?_, ?_⟩
  · rw [listVotes_removeLoop]
    exact h.nodup.sublist (List.filter_sublist.map _)
  · have hcount := nMemoryVotes_removeLoop hash vinMasternode f.listVotes f.nMemoryVotes
      f.mapVoteIndex
    have hsize := h.size
    omega
  · intro nHash w
    rw [lookup_removeLoop, listVotes_removeLoop, h.index, List.mem_filter, decide_eq_true_eq]
    constructor
    · rintro ⟨⟨hmem, he⟩, hall⟩
      exact ⟨⟨hmem, fun hvin => hall w hmem hvin he⟩, he⟩
    · rintro ⟨⟨hmem, hvin⟩, he⟩
      refine ⟨⟨hmem, he⟩, fun vote hvote hvin' he' => ?_⟩
      -- a removed vote of this hash would be the vote itself
      have hsame := List.inj_on_of_nodup_map h.nodup hvote hmem (he'.trans he.symm)
      exact hvin (hsame ▸ hvin')

/-! ### Rebuilding the index -/

theorem rebuildLoop_spec : ∀ (votes done : List CGovernanceVote) (n : ℤ)
    (index : AList fun _ : H => CGovernanceVote), n = done.length →
    (done.map (CGovernanceVote.getHash hash)).Nodup →
    (∀ nHash w, index.lookup nHash = some w ↔ w ∈ done ∧ w.getHash hash = nHash) →
    (rebuildLoop hash n index votes).nMemoryVotes =
        (done.length + (rebuildLoop hash n index votes).listVotes.length : ℕ) ∧
      ((done ++ (rebuildLoop hash n index votes).listVotes).map
        (CGovernanceVote.getHash hash)).Nodup ∧
      ∀ nHash w, (rebuildLoop hash n index votes).mapVoteIndex.lookup nHash = some w ↔
        w ∈ done ++ (rebuildLoop hash n index votes).listVotes ∧ w.getHash hash = nHash
  | [], done, n, index, hn, hnodup, hindex => by
    rw [rebuildLoop, List.append_nil]
    exact ⟨hn, hnodup, hindex⟩
  | vote :: votes, done, n, index, hn, hnodup, hindex => by
    unfold rebuildLoop
    split_ifs with hnone
    · rw [Option.isNone_iff_eq_none] at hnone
      have hfresh : ∀ w ∈ done, w.getHash hash ≠ vote.getHash hash := by
        intro w hw he
        have hsome := (hindex _ w).mpr ⟨hw, he⟩
        rw [hnone] at hsome
        exact absurd hsome (by simp)
      obtain ⟨hsize, hnd, hix⟩ := rebuildLoop_spec votes (vote :: done) (n + 1)
        (index.insert (vote.getHash hash) vote) (by rw [hn, List.length_cons]; rfl)
        (by
          rw [List.map_cons, List.nodup_cons]
          refine ⟨fun hmem => ?_, hnodup⟩
          obtain ⟨w, hw, he⟩ := List.mem_map.mp hmem
          exact hfresh w hw he)
        (by
          intro nHash w
          rcases eq_or_ne nHash (vote.getHash hash) with rfl | hne
          · rw [AList.lookup_insert, List.mem_cons]
            constructor
            · rintro ⟨⟩
              exact ⟨.inl rfl, rfl⟩
            · rintro ⟨rfl | hmem, he⟩
              · rfl
              · exact absurd he (hfresh w hmem)
          · rw [AList.lookup_insert_ne hne, hindex, List.mem_cons]
            constructor
            · exact fun ⟨hmem, he⟩ => ⟨.inr hmem, he⟩
            · rintro ⟨rfl | hmem, he⟩
              · exact absurd he.symm hne
              · exact ⟨hmem, he⟩)
      have hperm : (done ++ vote :: (rebuildLoop hash (n + 1)
          (index.insert (vote.getHash hash) vote) votes).listVotes).Perm
          (vote :: done ++ (rebuildLoop hash (n + 1)
            (index.insert (vote.getHash hash) vote) votes).listVotes) := List.perm_middle
      refine ⟨?_, ?_, ?_⟩
      · show (rebuildLoop hash (n + 1) _ votes).nMemoryVotes = _
        rw [hsize]
        simp only [List.length_cons]
        omega
      · exact (hperm.map _).nodup_iff.mpr hnd
      · intro nHash w
        exact (hix nHash w).trans (and_congr_left' hperm.symm.mem_iff)
    · exact rebuildLoop_spec votes done n index hn hnodup hindex

theorem listVotes_rebuildLoop : ∀ (votes : List CGovernanceVote) (n : ℤ)
    (index : AList fun _ : H => CGovernanceVote),
    (∀ vote ∈ votes, index.lookup (vote.getHash hash) = none) →
    (votes.map (CGovernanceVote.getHash hash)).Nodup →
    (rebuildLoop hash n index votes).listVotes = votes
  | [], _, _, _, _ => rfl
  | vote :: votes, n, index, hindex, hnodup => by
    rw [List.map_cons, List.nodup_cons] at hnodup
    unfold rebuildLoop
    rw [if_pos (by rw [hindex vote List.mem_cons_self]; rfl)]
    refine congrArg (vote :: ·) (listVotes_rebuildLoop votes _ _ (fun w hw => ?_) hnodup.2)
    rw [AList.lookup_insert_ne fun he => hnodup.1 (List.mem_map.mpr ⟨w, hw, he⟩)]
    exact hindex w (List.mem_cons_of_mem vote hw)

theorem Consistent.listVotes_copy {f : CGovernanceObjectVoteFile H} (h : Consistent hash f) :
    (f.copy hash).listVotes = f.listVotes :=
  listVotes_rebuildLoop f.listVotes 0 ∅ (fun _ _ => AList.lookup_empty _) h.nodup

theorem consistent_copy (other : CGovernanceObjectVoteFile H) :
    Consistent hash (other.copy hash) := by
  obtain ⟨hsize, hnodup, hindex⟩ := rebuildLoop_spec other.listVotes [] 0 ∅ rfl
    (List.nodup_nil : (([] : List CGovernanceVote).map (CGovernanceVote.getHash hash)).Nodup)
    (by simp)
  refine ⟨hnodup, ?_, hindex⟩
  show (rebuildLoop hash 0 ∅ other.listVotes).nMemoryVotes = _
  rw [hsize, List.length_nil, Nat.zero_add]
  rfl

end CGovernanceObjectVoteFile

/-! ### The file of an object -/

namespace CGovernanceObject

open CGovernanceObjectVoteFile

variable {env : GovernanceEnv} {o : CGovernanceObject H} {vote : CGovernanceVote} {fRate : Bool}

variable (hash env o vote fRate) in
theorem fileVotes_processVote :
    ((processVote hash env fRate o vote).govobj.fileVotes = o.fileVotes ∧
        (processVote hash env fRate o vote).fOk = false) ∨
      (processVote hash env fRate o vote).govobj.fileVotes =
        if o.fileVotes.hasVote (vote.getHash hash) then o.fileVotes
        else o.fileVotes.addVote hash vote := by
  rcases Int.lt_or_le (env.getMasternodeIndex vote.vinMasternode.prevout) 0 with hneg | hindex
  · left
    unfold processVote
    rw [if_pos hneg]
    exact ⟨rfl, rfl⟩
  · rcases Decidable.em (Supported vote.getSignal) with hs | hs
    · have hrecord : (o.record hash (env.getMasternodeIndex vote.vinMasternode.prevout)
          vote).fileVotes = if o.fileVotes.hasVote (vote.getHash hash) then o.fileVotes
            else o.fileVotes.addVote hash vote := rfl
      rw [processVote_supported hindex hs, ← hrecord]
      dsimp only
      split_ifs
      · exact .inl ⟨rfl, rfl⟩
      · exact .inl ⟨rfl, rfl⟩
      · exact .inl ⟨rfl, rfl⟩
      · exact .inl ⟨rfl, rfl⟩
      · exact .inr rfl
    · obtain ⟨hfail, hobj⟩ := processVote_unsupported hash o fRate hindex hs
      exact .inl ⟨by rw [hobj]; rfl, hfail⟩

theorem consistent_processVote (h : o.fileVotes.Consistent hash) :
    (processVote hash env fRate o vote).govobj.fileVotes.Consistent hash := by
  rcases fileVotes_processVote hash env o vote fRate with ⟨hsame, -⟩ | hadd
  · rw [hsame]
    exact h
  · rw [hadd]
    split_ifs with hhas
    · exact h
    · exact h.addVote (Bool.not_eq_true _ ▸ hhas)

theorem hasVote_processVote {nHash : H} (h : o.fileVotes.hasVote nHash = true) :
    (processVote hash env fRate o vote).govobj.fileVotes.hasVote nHash = true := by
  rcases fileVotes_processVote hash env o vote fRate with ⟨hsame, -⟩ | hadd
  · rw [hsame]
    exact h
  · rw [hadd]
    split_ifs with hhas
    · exact h
    · show ((o.fileVotes.mapVoteIndex.insert (vote.getHash hash) vote).lookup nHash).isSome = true
      rcases eq_or_ne nHash (vote.getHash hash) with rfl | hne
      · rw [AList.lookup_insert]
        rfl
      · rw [AList.lookup_insert_ne hne]
        exact h

theorem hasVote_of_fOk (h : (processVote hash env fRate o vote).fOk = true) :
    (processVote hash env fRate o vote).govobj.fileVotes.hasVote (vote.getHash hash) = true := by
  rcases fileVotes_processVote hash env o vote fRate with ⟨-, hfail⟩ | hadd
  · rw [hfail] at h
    exact absurd h Bool.false_ne_true
  · rw [hadd]
    split_ifs with hhas
    · exact hhas
    · show ((o.fileVotes.mapVoteIndex.insert (vote.getHash hash) vote).lookup _).isSome = true
      rw [AList.lookup_insert]
      rfl

theorem consistent_clearMasternodeVotes (h : o.fileVotes.Consistent hash) :
    (o.clearMasternodeVotes hash env).fileVotes.Consistent hash := by
  have hstep : ∀ {o : CGovernanceObject H} {nMNIndex : ℤ}, o.fileVotes.Consistent hash →
      (o.clearMasternode hash env nMNIndex).fileVotes.Consistent hash := by
    intro o nMNIndex ho
    unfold clearMasternode
    cases env.getMasternodeVin nMNIndex with
    | none => exact ho
    | some vinMasternode =>
      dsimp only
      split_ifs
      · exact ho
      · exact ho.removeVotesFromMasternode vinMasternode
  unfold clearMasternodeVotes
  generalize o.mapCurrentMNVotes.keys = keys
  induction keys generalizing o with
  | nil => exact h
  | cons nMNIndex keys ih => exact ih (hstep h)

end CGovernanceObject

end Stonecoin
