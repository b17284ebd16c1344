/-
A partial merkle tree that yields the root of a list proves that its matches are in the list.

Nothing is assumed of the bits and hashes, which come from the network.  A failure sets a flag
that is never reset (`Between.good`), so below a root that was accepted nothing failed; and a
node that equals a node of the tree has the tree's children, down to the leaves
(`traverse_sound`).  Neither the check of equal branches nor those of the numbers of bits and
hashes are needed for this.

  * `extractMatches_sound`: the matches are leaves of the list, at different places.
-/
import Stonecoin.PartialMerkleTree
import Mathlib.Data.List.Sort

namespace Stonecoin

open MerkleTrees

namespace CPartialMerkleTree

variable {hash : UInt256 → UInt256 → UInt256} {t : CPartialMerkleTree}

/-! ### The extraction ends -/

theorem readBit_ne_none {s : ExtractState}
    {k : Bool → ExtractState → Option (UInt256 × ExtractState)}
    (hk : ∀ b s, k b s ≠ none) : t.readBit s k ≠ none := by
  unfold readBit
  split
  next => exact Option.some_ne_none _
  next hlt =>
    rw [List.getElem?_eq_getElem (Nat.not_le.mp hlt)]
    exact hk _ _

theorem useHash_ne_none {s : ExtractState} {matched : Option ℕ} : t.useHash s matched ≠ none := by
  unfold useHash
  split
  next => exact Option.some_ne_none _
  next hlt =>
    rw [List.getElem?_eq_getElem (Nat.not_le.mp hlt)]
    cases matched with
    | none => exact Option.some_ne_none _
    | some pos => exact Option.some_ne_none _

theorem traverse_ne_none : ∀ {height pos : ℕ} {s : ExtractState},
    t.traverseAndExtract hash height pos s ≠ none := by
  intro height
  induction height with
  | zero => exact fun {_ _} => readBit_ne_none fun _ _ => useHash_ne_none
  | succ height ih =>
    intro pos s
    rw [traverseAndExtract]
    apply readBit_ne_none
    intro b s
    split
    · exact useHash_ne_none
    · split
      next h => exact absurd h ih
      next left s' _ =>
        split
        · split
          next h => exact absurd h ih
          next => exact Option.some_ne_none _
        · exact Option.some_ne_none _

theorem extractMatches_ne_none : t.extractMatches hash ≠ none := by
  unfold extractMatches
  split
  · exact Option.some_ne_none _
  split
  · exact Option.some_ne_none _
  next hmax =>
    have hle : t.nTransactions ≤ 2 ^ 32 :=
      (Nat.not_lt.mp hmax).trans (show MAX_BLOCK_SIZE / 60 ≤ 2 ^ 32 by decide)
    rw [treeHeight_eq hle]
    split
    · exact Option.some_ne_none _
    split
    · exact Option.some_ne_none _
    dsimp only
    split
    next h => exact absurd h traverse_ne_none
    next =>
      split
      · exact Option.some_ne_none _
      split
      · exact Option.some_ne_none _
      split
      · exact Option.some_ne_none _
      · exact Option.some_ne_none _

/-! ### One bit, one hash -/

theorem readBit_good {s s' : ExtractState} {h : UInt256}
    {k : Bool → ExtractState → Option (UInt256 × ExtractState)}
    (hread : t.readBit s k = some (h, s')) (hgood : s'.fBad = false) :
    ∃ b, k b { s with nBitsUsed := s.nBitsUsed + 1 } = some (h, s') := by
  unfold readBit at hread
  split at hread
  next =>
    cases hread
    cases hgood
  next hlt =>
    rw [List.getElem?_eq_getElem (Nat.not_le.mp hlt)] at hread
    exact ⟨_, hread⟩

theorem useHash_good {s s' : ExtractState} {h : UInt256} {matched : Option ℕ}
    (huse : t.useHash s matched = some (h, s')) (hgood : s'.fBad = false) :
    s.fBad = false ∧ s'.vMatch = s.vMatch ++ matched.toList.map (fun _ => h) ∧
      s'.places = s.places ++ matched.toList := by
  unfold useHash at huse
  split at huse
  next =>
    cases huse
    cases hgood
  next hlt =>
    rw [List.getElem?_eq_getElem (Nat.not_le.mp hlt)] at huse
    cases matched with
    | none =>
      cases huse
      exact ⟨hgood, (List.append_nil _).symm, (List.append_nil _).symm⟩
    | some pos =>
      cases huse
      exact ⟨hgood, rfl, rfl⟩

/-! ### The walk -/

variable {leaves : List UInt256}

/-- What a walk without a failure leaves: matches between two places, in their order. -/
structure Between (leaf : ℕ → UInt256) (lo hi : ℕ) (s s' : ExtractState) (found : List ℕ) :
    Prop where
  good : s.fBad = false
  vMatch : s'.vMatch = s.vMatch ++ found.map leaf
  places : s'.places = s.places ++ found
  range : ∀ p ∈ found, lo ≤ p ∧ p < hi
  ascending : found.Pairwise (· < ·)

theorem Between.trans {leaf : ℕ → UInt256} {lo mid hi : ℕ} {s s' s'' : ExtractState}
    {p q : List ℕ} (h : Between leaf lo mid s s' p) (h' : Between leaf mid hi s' s'' q)
    (hlo : lo ≤ mid) (hhi : mid ≤ hi) : Between leaf lo hi s s'' (p ++ q) where
  good := h.good
  vMatch := by rw [h'.vMatch, h.vMatch, List.map_append, List.append_assoc]
  places := by rw [h'.places, h.places, List.append_assoc]
  range := by
    intro x hx
    rcases List.mem_append.mp hx with hx | hx
    · exact ⟨(h.range x hx).1, (h.range x hx).2.trans_le hhi⟩
    · exact ⟨hlo.trans (h'.range x hx).1, (h'.range x hx).2⟩
  ascending := by
    rw [List.pairwise_append]
    refine ⟨h.ascending, h'.ascending, fun x hx y hy => ?_⟩
    exact (h.range x hx).2.trans_le (h'.range y hy).1

theorem Between.start {leaf : ℕ → UInt256} {lo hi : ℕ} {s s₁ s' : ExtractState} {p : List ℕ}
    (h : Between leaf lo hi s₁ s' p) (hbad : s.fBad = s₁.fBad) (hm : s.vMatch = s₁.vMatch)
    (hp : s.places = s₁.places) : Between leaf lo hi s s' p where
  good := hbad.trans h.good
  vMatch := by rw [hm]; exact h.vMatch
  places := by rw [hp]; exact h.places
  range := h.range
  ascending := h.ascending

theorem Between.of_useHash {leaf : ℕ → UInt256} {lo hi : ℕ} {s s' : ExtractState} {h : UInt256}
    (huse : t.useHash s none = some (h, s')) (hgood : s'.fBad = false) :
    Between leaf lo hi s s' [] := by
  obtain ⟨h0, hm, hp⟩ := useHash_good huse hgood
  exact ⟨h0, hm, hp, by simp, .nil⟩

theorem traverse_sound (hbind : Binding hash (leafAt leaves) leaves.length)
    (ht : t.nTransactions = leaves.length) :
    ∀ {height pos : ℕ} {s s' : ExtractState} {h : UInt256},
    height ≤ Nat.clog 2 leaves.length → pos * 2 ^ height < leaves.length →
    t.traverseAndExtract hash height pos s = some (h, s') → s'.fBad = false →
    h = node hash (leafAt leaves) leaves.length height pos →
    ∃ found, Between (leafAt leaves) (pos * 2 ^ height)
      (min ((pos + 1) * 2 ^ height) leaves.length) s s' found := by
  intro height
  induction height with
  | zero =>
    intro pos s s' h _ hpos hext hgood hnode
    rw [traverseAndExtract] at hext
    obtain ⟨b, hk⟩ := readBit_good hext hgood
    obtain ⟨h0, hm, hp⟩ := useHash_good hk hgood
    simp only [pow_zero, mul_one] at hpos ⊢
    cases b with
    | false => exact ⟨[], h0, hm, hp, by simp, .nil⟩
    | true =>
      refine ⟨[pos], h0, ?_, hp, ?_, List.pairwise_singleton _ _⟩
      · rw [hm, hnode]
        rfl
      · intro p hp
        rw [List.mem_singleton.mp hp]
        omega
  | succ height ih =>
    intro pos s s' h hk hpos hext hgood hnode
    have hk' : height ≤ Nat.clog 2 leaves.length := Nat.le_of_succ_le hk
    have hmid : (2 * pos + 1) * 2 ^ height = pos * 2 ^ (height + 1) + 2 ^ height :=
      right_place pos height
    have hleft : 2 * pos * 2 ^ height = pos * 2 ^ (height + 1) := left_place pos height
    have hright : (2 * pos + 1 + 1) * 2 ^ height = (pos + 1) * 2 ^ (height + 1) :=
      next_place pos height
    have hpow : 0 < 2 ^ height := Nat.two_pow_pos height
    rw [traverseAndExtract] at hext
    obtain ⟨b, hk₁⟩ := readBit_good hext hgood
    cases b with
    | false => exact ⟨[], (Between.of_useHash hk₁ hgood).start rfl rfl rfl⟩
    | true =>
      simp only [Bool.not_true, Bool.false_eq_true, if_false, Nat.mul_comm pos 2, ht] at hk₁
      split at hk₁
      next => cases hk₁
      next left s₁ hl =>
        split at hk₁
        next hwidth =>
          -- both children, of which neither failed
          rw [calcTreeWidth_lt] at hwidth
          split at hk₁
          next => cases hk₁
          next right' s₂ hr =>
            obtain ⟨hh, hbad₂, hs₂⟩ : hash left right' = h ∧ s₂.fBad = false ∧ s' = s₂ := by
              split at hk₁
              next =>
                cases hk₁
                cases hgood
              next =>
                cases hk₁
                exact ⟨rfl, hgood, rfl⟩
            rw [hs₂]
            obtain ⟨heq, heq'⟩ := hbind height pos hk hpos _ _ (hh.trans hnode)
            rw [right_of_lt hwidth] at heq'
            obtain ⟨q, hq⟩ := ih hk' hwidth hr hbad₂ heq'
            obtain ⟨p, hp⟩ := ih hk' (by omega) hl hq.good heq
            rw [hleft, Nat.min_eq_left hwidth.le] at hp
            rw [hright] at hq
            refine ⟨p ++ q, (hp.trans hq (by omega) ?_).start rfl rfl rfl⟩
            rw [← hright, Nat.le_min]
            exact ⟨Nat.mul_le_mul_right _ (by omega), hwidth.le⟩
        next hwidth =>
          -- the left child twice
          cases hk₁
          obtain ⟨heq, -⟩ := hbind height pos hk hpos _ _ hnode
          obtain ⟨p, hp⟩ := ih hk' (by omega) hl hgood heq
          rw [hleft] at hp
          have hge := Nat.not_lt.mp fun hc => hwidth (calcTreeWidth_lt.mpr hc)
          refine ⟨p, ?_⟩
          have hmin : min ((2 * pos + 1) * 2 ^ height) leaves.length =
              min ((pos + 1) * 2 ^ (height + 1)) leaves.length := by
            rw [Nat.min_eq_right hge, Nat.min_eq_right]
            rw [← hright]
            exact hge.trans (Nat.mul_le_mul_right _ (by omega))
          rw [hmin] at hp
          exact hp.start rfl rfl rfl

/-! ### `ExtractMatches` -/

theorem extractMatches_good {r : Extracted} (h : t.extractMatches hash = some r)
    (hroot : r.root ≠ 0) : 0 < t.nTransactions ∧ t.nTransactions ≤ MAX_BLOCK_SIZE / 60 ∧
      ∃ s, t.traverseAndExtract hash (Nat.clog 2 t.nTransactions) 0 ⟨t.fBad, 0, 0, [], []⟩ =
        some (r.root, s) ∧ s.fBad = false ∧ r.vMatch = s.vMatch ∧ r.places = s.places := by
  have hnull : ∀ {m p}, some (⟨0, m, p⟩ : Extracted) = some r → False := by
    intro m p hr
    cases hr
    exact hroot rfl
  unfold extractMatches at h
  split at h
  next => exact (hnull h).elim
  next hpos =>
    split at h
    next => exact (hnull h).elim
    next hmax =>
      have hmax := Nat.not_lt.mp hmax
      refine ⟨Nat.pos_of_ne_zero hpos, hmax, ?_⟩
      rw [treeHeight_eq (hmax.trans (show MAX_BLOCK_SIZE / 60 ≤ 2 ^ 32 by decide))] at h
      split at h
      next => exact (hnull h).elim
      next =>
        split at h
        next => exact (hnull h).elim
        next =>
          dsimp only at h
          split at h
          next => cases h
          next x s hs =>
            split at h
            next => exact (hnull h).elim
            next hbad =>
              split at h
              next => exact (hnull h).elim
              next =>
                split at h
                next => exact (hnull h).elim
                next =>
                  cases h
                  exact ⟨s, hs, by simpa using hbad, rfl, rfl⟩

end CPartialMerkleTree

theorem map_leafAt_sublist {leaves : List UInt256} {places : List ℕ}
    (hasc : places.Pairwise (· < ·)) (hlt : ∀ p ∈ places, p < leaves.length) :
    (places.map (leafAt leaves)).Sublist leaves := by
  have hsub : places.Sublist (List.range leaves.length) := by
    apply List.sublist_of_subperm_of_pairwise _ hasc List.pairwise_lt_range
    apply List.subperm_of_subset hasc.nodup
    exact fun p hp => List.mem_range.mpr (hlt p hp)
  have hall : (List.range leaves.length).map (leafAt leaves) = leaves := by
    apply List.ext_getElem
    · simp
    · intro i h h'
      rw [List.getElem_map, List.getElem_range, leafAt_of_lt h']
  have hmap := hsub.map (leafAt leaves)
  rwa [hall] at hmap

/-- **Partial merkle proofs are sound.**  The extraction ends without reading beyond the bits and
hashes.  If it returns the root of a list of as many ids, which is not the null hash, and no
node of the tree over the list is the hash of another pair than its children, then every match
is the id at the place that the walk gave to it, and the places ascend. -/
theorem extractMatches_sound (hash : UInt256 → UInt256 → UInt256) :
    (∀ t : CPartialMerkleTree, t.extractMatches hash ≠ none) ∧
    ∀ leaves, leaves ≠ [] → Binding hash (leafAt leaves) leaves.length →
      (computeMerkleRoot hash leaves).1 ≠ 0 → ∀ (t : CPartialMerkleTree) r,
      t.nTransactions = leaves.length → t.extractMatches hash = some r →
      r.root = (computeMerkleRoot hash leaves).1 →
      r.vMatch = r.places.map (leafAt leaves) ∧ r.places.Pairwise (· < ·) ∧
        (∀ p ∈ r.places, p < leaves.length) ∧ r.vMatch.Sublist leaves := by
  refine ⟨fun t => t.extractMatches_ne_none, ?_⟩
  intro leaves hne hbind hnull t r ht h hroot
  obtain ⟨hpos, hmax, s, hs, hgood, hm, hp⟩ := t.extractMatches_good h (hroot ▸ hnull)
  rw [ht] at hpos hmax hs
  have hcompute := (computeMerkleRoot_eq hash hne (hmax.trans (by decide))).1
  obtain ⟨found, hfound⟩ := CPartialMerkleTree.traverse_sound hbind ht le_rfl
    (show 0 * 2 ^ Nat.clog 2 leaves.length < leaves.length by simpa using hpos) hs hgood
    (hroot.trans hcompute)
  have hplaces : r.places = found := by rw [hp, hfound.places, List.nil_append]
  have hmatch : r.vMatch = found.map (leafAt leaves) := by rw [hm, hfound.vMatch, List.nil_append]
  have hlt : ∀ p ∈ found, p < leaves.length := fun p hp =>
    (hfound.range p hp).2.trans_le (Nat.min_le_right _ _)
  rw [hplaces, hmatch]
  exact ⟨rfl, hfound.ascending, hlt, map_leafAt_sublist hfound.ascending hlt⟩

/-- A proof of the second and the third of three ids. -/
theorem extractMatches_sound_123 : ([2, 3] : List UInt256).Sublist [1, 2, 3] := by
  have hroot : (computeMerkleRoot treeHash123 [1, 2, 3]).1 = 6 := by decide +kernel
  have hext : CPartialMerkleTree.extractMatches treeHash123
      ⟨3, [true, true, false, true, true, true, false, false], [1, 2, 3], false⟩ =
        some ⟨6, [2, 3], [1, 2]⟩ := by decide +kernel
  exact ((extractMatches_sound treeHash123).2 [1, 2, 3] (by decide) binding_123
    (by rw [hroot]; decide) _ _ rfl hext hroot.symm).2.2.2

end Stonecoin
