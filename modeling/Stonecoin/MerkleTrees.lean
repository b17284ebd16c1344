/-
Trees of pair hashes over a list of leaves, where a node without a right sibling is paired
with itself.

`perfect k i` is the complete subtree of `2 ^ k` leaves at place `i`, and `node k i` the node
of the padded tree at that place; they are the same as long as the leaves last
(`node_eq_perfect`).  The padding makes two lists of different length share a root.  With a
pair hash that has no collision among the nodes, this takes two complete subtrees that are
equal and stand side by side in the longer list (`duplicated_of_root_eq`): the shorter list
ends in a left subtree that the longer one continues, and where that continuation is itself
padded the argument goes one level down (`node_eq_node`).

`levelRoot` computes a root level by level, and `sibling` is what a branch holds of a level: a
branch leads from a leaf to the root (`node_climb`).
-/
import Mathlib.Data.Nat.Log
import Mathlib.Data.Nat.Factorization.Basic
import Mathlib.Data.Set.Basic
import Mathlib.Tactic.Ring

namespace MerkleTrees

variable {α : Type*} (hash : α → α → α) (leaf : ℕ → α) (n : ℕ)

/-- The complete subtree over the `2 ^ k` leaves from `i * 2 ^ k` on. -/
def perfect : ℕ → ℕ → α
  | 0, i => leaf i
  | k + 1, i => hash (perfect k (2 * i)) (perfect k (2 * i + 1))

/-- The node at place `i` of level `k` in the padded tree over `n` leaves. -/
def node : ℕ → ℕ → α
  | 0, i => leaf i
  | k + 1, i =>
    hash (node k (2 * i)) (if (2 * i + 1) * 2 ^ k < n then node k (2 * i + 1) else node k (2 * i))

/-- The root stands at the first level that one node covers. -/
def root : α :=
  node hash leaf n (Nat.clog 2 n) 0

/-- The nodes of the padded tree. -/
def nodes : Set α :=
  { v | ∃ k i, k ≤ Nat.clog 2 n ∧ i * 2 ^ k < n ∧ node hash leaf n k i = v }

/-- Two complete subtrees of the list stand side by side and are equal. -/
def Duplicated : Prop :=
  ∃ k i, (2 * i + 2) * 2 ^ k ≤ n ∧
    perfect hash leaf k (2 * i) = perfect hash leaf k (2 * i + 1)

/-- Among the values of `S` the pair hash has no collision, and none of `L` is the hash of
two of them. -/
structure CollisionFree (S L : Set α) : Prop where
  inj : ∀ a ∈ S, ∀ b ∈ S, ∀ c ∈ S, ∀ d ∈ S, hash a b = hash c d → a = c ∧ b = d
  leaf : ∀ x ∈ L, ∀ a ∈ S, ∀ b ∈ S, x ≠ hash a b

variable {hash leaf n}

/-! ### Places -/

theorem left_place (i k : ℕ) : 2 * i * 2 ^ k = i * 2 ^ (k + 1) := by
  rw [pow_succ]
  ring

theorem right_place (i k : ℕ) : (2 * i + 1) * 2 ^ k = i * 2 ^ (k + 1) + 2 ^ k := by
  rw [pow_succ]
  ring

theorem next_place (i k : ℕ) : (2 * i + 1 + 1) * 2 ^ k = (i + 1) * 2 ^ (k + 1) := by
  rw [pow_succ]
  ring

/-! ### The nodes of one tree -/

/-- As long as the leaves last, the padding plays no part. -/
theorem node_eq_perfect : ∀ {k i : ℕ}, (i + 1) * 2 ^ k ≤ n →
    node hash leaf n k i = perfect hash leaf k i
  | 0, _, _ => rfl
  | k + 1, i, hfull => by
    have hright : (2 * i + 1 + 1) * 2 ^ k ≤ n := by rwa [next_place]
    have hplace : (2 * i + 1) * 2 ^ k + 2 ^ k ≤ n := by
      rwa [← Nat.succ_mul]
    have hpos : 0 < 2 ^ k := Nat.two_pow_pos k
    rw [node, if_pos (by omega), node_eq_perfect (by omega), node_eq_perfect hright]
    rfl

theorem node_mem_nodes {k i : ℕ} (hk : k ≤ Nat.clog 2 n) (hi : i * 2 ^ k < n) :
    node hash leaf n k i ∈ nodes hash leaf n :=
  ⟨k, i, hk, hi, rfl⟩

/-- The right child of a node: the next node, or the left child again. -/
def right (hash : α → α → α) (leaf : ℕ → α) (n k i : ℕ) : α :=
  if (2 * i + 1) * 2 ^ k < n then node hash leaf n k (2 * i + 1) else node hash leaf n k (2 * i)

theorem node_succ (k i : ℕ) :
    node hash leaf n (k + 1) i = hash (node hash leaf n k (2 * i)) (right hash leaf n k i) := rfl

theorem right_of_lt {k i : ℕ} (h : (2 * i + 1) * 2 ^ k < n) :
    right hash leaf n k i = node hash leaf n k (2 * i + 1) :=
  if_pos h

theorem right_of_le {k i : ℕ} (h : n ≤ (2 * i + 1) * 2 ^ k) :
    right hash leaf n k i = node hash leaf n k (2 * i) :=
  if_neg (not_lt.mpr h)

theorem left_mem_nodes {k i : ℕ} (hk : k + 1 ≤ Nat.clog 2 n) (hi : i * 2 ^ (k + 1) < n) :
    node hash leaf n k (2 * i) ∈ nodes hash leaf n :=
  node_mem_nodes (by omega) (by rwa [left_place])

theorem right_mem_nodes {k i : ℕ} (hk : k + 1 ≤ Nat.clog 2 n) (hi : i * 2 ^ (k + 1) < n) :
    right hash leaf n k i ∈ nodes hash leaf n := by
  rcases Nat.lt_or_ge ((2 * i + 1) * 2 ^ k) n with h | h
  · rw [right_of_lt h]
    exact node_mem_nodes (by omega) h
  · rw [right_of_le h]
    exact left_mem_nodes hk hi

/-- **No second preimages**: every node above the leaves is the hash of its children only. -/
def Binding (hash : α → α → α) (leaf : ℕ → α) (n : ℕ) : Prop :=
  ∀ k i, k + 1 ≤ Nat.clog 2 n → i * 2 ^ (k + 1) < n → ∀ x y,
    hash x y = node hash leaf n (k + 1) i →
      x = node hash leaf n k (2 * i) ∧ y = right hash leaf n k i

/-- Equal nodes of one level have the same first leaf. -/
theorem Binding.first_leaf (hbind : Binding hash leaf n) : ∀ {k i j : ℕ}, k ≤ Nat.clog 2 n →
    i * 2 ^ k < n → j * 2 ^ k < n → node hash leaf n k i = node hash leaf n k j →
    leaf (i * 2 ^ k) = leaf (j * 2 ^ k)
  | 0, i, j, _, _, _, h => by
    rw [pow_zero, mul_one, mul_one]
    exact h
  | k + 1, i, j, hk, hi, hj, h => by
    obtain ⟨hleft, -⟩ := hbind k i hk hi _ _ ((node_succ k j).symm.trans h.symm)
    rw [← left_place, ← left_place]
    rw [← left_place] at hi hj
    exact hbind.first_leaf (by omega) hi hj hleft.symm

/-- Two equal subtrees side by side within the leaves. -/
theorem Duplicated.of_nodes {k i : ℕ} (hfull : (2 * i + 1 + 1) * 2 ^ k ≤ n)
    (h : node hash leaf n k (2 * i) = node hash leaf n k (2 * i + 1)) :
    Duplicated hash leaf n := by
  refine ⟨k, i, hfull, ?_⟩
  have hleft : (2 * i + 1) * 2 ^ k ≤ n := by
    refine le_trans (Nat.mul_le_mul_right _ ?_) hfull
    omega
  rwa [← node_eq_perfect hleft, ← node_eq_perfect hfull]

/-! ### Equal nodes -/

variable {S L : Set α}

/-- Equal nodes have equal children. -/
theorem CollisionFree.children (hfree : CollisionFree hash S L) {leaf' : ℕ → α} {n' k k' i i' : ℕ}
    (hS : nodes hash leaf n ⊆ S) (hS' : nodes hash leaf' n' ⊆ S)
    (hk : k + 1 ≤ Nat.clog 2 n) (hi : i * 2 ^ (k + 1) < n)
    (hk' : k' + 1 ≤ Nat.clog 2 n') (hi' : i' * 2 ^ (k' + 1) < n')
    (h : node hash leaf n (k + 1) i = node hash leaf' n' (k' + 1) i') :
    node hash leaf n k (2 * i) = node hash leaf' n' k' (2 * i') ∧
      right hash leaf n k i = right hash leaf' n' k' i' := by
  rw [node_succ, node_succ] at h
  exact hfree.inj _ (hS (left_mem_nodes hk hi)) _ (hS (right_mem_nodes hk hi)) _
    (hS' (left_mem_nodes hk' hi')) _ (hS' (right_mem_nodes hk' hi')) h

/-- A node over leaves only equals a padded one of its level: below them two complete
subtrees side by side are equal. -/
theorem node_eq_node (hfree : CollisionFree hash S L) (hS : nodes hash leaf n ⊆ S) :
    ∀ {k i j : ℕ}, k ≤ Nat.clog 2 n → (i + 1) * 2 ^ k ≤ n → j * 2 ^ k < n → n < (j + 1) * 2 ^ k →
      node hash leaf n k i = node hash leaf n k j → Duplicated hash leaf n
  | 0, i, j, _, _, hj, hpart, _ => by
    simp only [pow_zero, mul_one] at hj hpart
    omega
  | k + 1, i, j, hk, hfull, hj, hpart, heq => by
    have hi : i * 2 ^ (k + 1) < n := by
      have hpos : 0 < 2 ^ (k + 1) := Nat.two_pow_pos _
      rw [Nat.succ_mul] at hfull
      omega
    obtain ⟨hleft, hright⟩ := hfree.children hS hS hk hi hk hj heq
    have hfull' : (2 * i + 1 + 1) * 2 ^ k ≤ n := by rwa [next_place]
    have hlt : (2 * i + 1) * 2 ^ k < n := by
      rw [Nat.succ_mul] at hfull'
      have hpos : 0 < 2 ^ k := Nat.two_pow_pos k
      omega
    rw [right_of_lt hlt] at hright
    rcases Nat.lt_or_ge ((2 * j + 1) * 2 ^ k) n with h | h
    · -- the padding is in the right child
      rw [right_of_lt h] at hright
      exact node_eq_node hfree hS (by omega) hfull' h (by rwa [next_place]) hright
    · -- the right child is the left one again, so the complete children are equal too
      rw [right_of_le h] at hright
      exact .of_nodes hfull' (hleft.trans hright.symm)

/-! ### Equal roots -/

variable {leaf₁ leaf₂ : ℕ → α} {n₁ n₂ : ℕ}

/-- Trees with the same root have the same height: the first leaf is no hash. -/
theorem clog_eq_of_root_eq (hfree : CollisionFree hash S L) (h₁ : nodes hash leaf₁ n₁ ⊆ S)
    (h₂ : nodes hash leaf₂ n₂ ⊆ S) (hL : leaf₁ 0 ∈ L) (hpos : 0 < n₁) (hle : n₁ ≤ n₂)
    (hroot : root hash leaf₁ n₁ = root hash leaf₂ n₂) : Nat.clog 2 n₁ = Nat.clog 2 n₂ := by
  have hheights : Nat.clog 2 n₁ ≤ Nat.clog 2 n₂ := Nat.clog_mono_right 2 hle
  -- down the left spine of both trees
  have hspine : ∀ d, d ≤ Nat.clog 2 n₁ →
      node hash leaf₁ n₁ (Nat.clog 2 n₁ - d) 0 = node hash leaf₂ n₂ (Nat.clog 2 n₂ - d) 0 := by
    intro d
    induction d with
    | zero => intro _; exact hroot
    | succ d ih =>
      intro hd
      obtain ⟨k, hk⟩ : ∃ k, Nat.clog 2 n₁ - d = k + 1 := ⟨Nat.clog 2 n₁ - d - 1, by omega⟩
      obtain ⟨k', hk'⟩ : ∃ k, Nat.clog 2 n₂ - d = k + 1 := ⟨Nat.clog 2 n₂ - d - 1, by omega⟩
      have hup := ih (by omega)
      rw [hk, hk'] at hup
      have hdown := (hfree.children h₁ h₂ (by omega) (by simpa using hpos) (by omega)
        (by simpa using hpos.trans_le hle) hup).1
      rwa [show Nat.clog 2 n₁ - (d + 1) = k by omega, show Nat.clog 2 n₂ - (d + 1) = k' by omega]
  by_contra hne
  obtain ⟨k, hk⟩ : ∃ k, Nat.clog 2 n₂ - Nat.clog 2 n₁ = k + 1 :=
    ⟨Nat.clog 2 n₂ - Nat.clog 2 n₁ - 1, by omega⟩
  have hleaf := hspine _ le_rfl
  rw [Nat.sub_self, hk, node_succ] at hleaf
  have hk' : k + 1 ≤ Nat.clog 2 n₂ := by omega
  have h0 : 0 * 2 ^ (k + 1) < n₂ := by simpa using hpos.trans_le hle
  exact hfree.leaf _ hL _ (h₂ (left_mem_nodes hk' h0)) _ (h₂ (right_mem_nodes hk' h0)) hleaf

/-- Trees of one height with the same root agree at every node of the smaller one. -/
theorem node_eq_of_root_eq (hfree : CollisionFree hash S L) (h₁ : nodes hash leaf₁ n₁ ⊆ S)
    (h₂ : nodes hash leaf₂ n₂ ⊆ S) (hle : n₁ ≤ n₂) (hclog : Nat.clog 2 n₁ = Nat.clog 2 n₂)
    (hroot : root hash leaf₁ n₁ = root hash leaf₂ n₂) :
    ∀ d k i, k + d = Nat.clog 2 n₁ → i * 2 ^ k < n₁ →
      node hash leaf₁ n₁ k i = node hash leaf₂ n₂ k i := by
  intro d
  induction d with
  | zero =>
    intro k i hk hi
    obtain rfl : k = Nat.clog 2 n₁ := by omega
    have hcover : n₁ ≤ 2 ^ Nat.clog 2 n₁ := Nat.le_pow_clog one_lt_two n₁
    obtain rfl : i = 0 := by
      by_contra hne
      have : 2 ^ Nat.clog 2 n₁ ≤ i * 2 ^ Nat.clog 2 n₁ :=
        Nat.le_mul_of_pos_left _ (Nat.pos_of_ne_zero hne)
      omega
    show root hash leaf₁ n₁ = _
    rw [hroot, root, hclog]
  | succ d ih =>
    intro k i hk hi
    -- the parent stands at place `i / 2`
    obtain ⟨p, hp⟩ : ∃ p, i = 2 * p ∨ i = 2 * p + 1 := ⟨i / 2, by omega⟩
    have hparent : p * 2 ^ (k + 1) < n₁ := by
      rw [← left_place]
      exact lt_of_le_of_lt (Nat.mul_le_mul_right _ (by omega)) hi
    have hup := ih (k + 1) p (by omega) hparent
    obtain ⟨hleft, hright⟩ := hfree.children h₁ h₂ (by omega) hparent (by omega)
      (hparent.trans_le hle) hup
    rcases hp with rfl | rfl
    · exact hleft
    · rwa [right_of_lt hi, right_of_lt (hi.trans_le hle)] at hright

/-- **A shared root gives a duplicate away.**  Two lists with the same root are the same, or
the longer one has two equal complete subtrees side by side. -/
theorem duplicated_of_root_eq (hfree : CollisionFree hash S L) (h₁ : nodes hash leaf₁ n₁ ⊆ S)
    (h₂ : nodes hash leaf₂ n₂ ⊆ S) (hL : leaf₁ 0 ∈ L) (hpos : 0 < n₁) (hle : n₁ ≤ n₂)
    (hroot : root hash leaf₁ n₁ = root hash leaf₂ n₂) :
    (n₁ = n₂ ∧ ∀ i < n₁, leaf₁ i = leaf₂ i) ∨ Duplicated hash leaf₂ n₂ := by
  have hclog := clog_eq_of_root_eq hfree h₁ h₂ hL hpos hle hroot
  have hnode := node_eq_of_root_eq hfree h₁ h₂ hle hclog hroot
  rcases Nat.lt_or_ge n₁ n₂ with hlt | hge
  · right
    -- the last complete subtree of the shorter list is a left child
    obtain ⟨k, p, hodd⟩ : ∃ k p, n₁ = (2 * p + 1) * 2 ^ k := by
      obtain ⟨k, m, ⟨p, rfl⟩, hm⟩ := Nat.exists_eq_two_pow_mul_odd hpos.ne'
      exact ⟨k, p, by rw [hm, mul_comm]⟩
    have hk : k < Nat.clog 2 n₁ := by
      by_contra hnot
      have hcover : n₂ ≤ 2 ^ Nat.clog 2 n₂ := Nat.le_pow_clog one_lt_two n₂
      have hpow : 2 ^ Nat.clog 2 n₂ ≤ 2 ^ k := Nat.pow_le_pow_right two_pos (by omega)
      have hmul : 2 ^ k ≤ (2 * p + 1) * 2 ^ k := Nat.le_mul_of_pos_left _ (by omega)
      omega
    have hp : p * 2 ^ (k + 1) < n₁ := by
      rw [hodd, right_place]
      exact Nat.lt_add_of_pos_right (Nat.two_pow_pos k)
    obtain ⟨d, hd⟩ : ∃ d, k + 1 + d = Nat.clog 2 n₁ := ⟨Nat.clog 2 n₁ - (k + 1), by omega⟩
    obtain ⟨hleft, hright⟩ := hfree.children h₁ h₂ (by omega) hp (by omega) (hp.trans_le hle)
      (hnode d (k + 1) p hd hp)
    rw [right_of_le hodd.le, right_of_lt (by omega)] at hright
    have heq : node hash leaf₂ n₂ k (2 * p) = node hash leaf₂ n₂ k (2 * p + 1) :=
      hleft.symm.trans hright
    rcases Nat.lt_or_ge n₂ ((2 * p + 1 + 1) * 2 ^ k) with hpart | hfull
    · exact node_eq_node hfree h₂ (by omega) (by omega) (by omega) hpart heq
    · exact .of_nodes hfull heq
  · left
    obtain rfl : n₁ = n₂ := le_antisymm hle hge
    refine ⟨rfl, fun i hi => ?_⟩
    exact hnode (Nat.clog 2 n₁) 0 i (by omega) (by simpa using hi)

/-! ### Level by level -/

section Levels

variable (hash) in
/-- One level up: neighbours are paired, and an odd last element with itself. -/
def pairUp : List α → List α
  | [] => []
  | [a] => [hash a a]
  | a :: b :: l => hash a b :: pairUp l

theorem length_pairUp : ∀ l : List α, (pairUp hash l).length = (l.length + 1) / 2
  | [] => by simp [pairUp]
  | [a] => by simp [pairUp]
  | a :: b :: l => by
    rw [pairUp, List.length_cons, length_pairUp l, List.length_cons, List.length_cons]
    omega

variable (hash) in
/-- The root of a list, level by level. -/
def levelRoot [Inhabited α] (l : List α) : α :=
  if l.length ≤ 1 then l.headD default else levelRoot (pairUp hash l)
termination_by l.length
decreasing_by
  rw [length_pairUp]
  omega

variable (hash) in
/-- The number of levels below the root. -/
def levelCount (l : List α) : ℕ :=
  if l.length ≤ 1 then 0 else levelCount (pairUp hash l) + 1
termination_by l.length
decreasing_by
  rw [length_pairUp]
  omega

theorem pairUp_map_range : ∀ (m : ℕ) (f : ℕ → α), pairUp hash ((List.range m).map f) =
    (List.range ((m + 1) / 2)).map fun i =>
      hash (f (2 * i)) (if 2 * i + 1 < m then f (2 * i + 1) else f (2 * i))
  | 0, _ => by simp [pairUp]
  | 1, _ => by simp [pairUp]
  | m + 2, f => by
    have hhalf : (m + 2 + 1) / 2 = (m + 1) / 2 + 1 := by omega
    have hlist : (List.range (m + 2)).map f =
        f 0 :: f 1 :: (List.range m).map fun i => f (i + 2) := by
      rw [List.range_succ_eq_map, List.range_succ_eq_map]
      simp [Function.comp_def]
    rw [hlist, pairUp, pairUp_map_range m, hhalf, List.range_succ_eq_map, List.map_cons,
      List.map_map]
    congr 1
    apply List.map_congr_left
    intro i _
    have hleft : 2 * i + 2 = 2 * (i + 1) := by ring
    have hright : 2 * i + 1 + 2 = 2 * (i + 1) + 1 := by ring
    show hash (f (2 * i + 2)) (if 2 * i + 1 < m then f (2 * i + 1 + 2) else f (2 * i + 2)) =
      hash (f (2 * (i + 1)))
        (if 2 * (i + 1) + 1 < m + 2 then f (2 * (i + 1) + 1) else f (2 * (i + 1)))
    rw [hleft, hright]
    by_cases h : 2 * i + 1 < m
    · rw [if_pos h, if_pos (by omega)]
    · rw [if_neg h, if_neg (by omega)]

end Levels

/-! ### Branches -/

variable (hash leaf n) in
/-- What a branch holds of level `k` for the leaf at a place: the other child of the node above. -/
def sibling (pos k : ℕ) : α :=
  if pos / 2 ^ k % 2 = 1 then node hash leaf n k (pos / 2 ^ k - 1)
  else right hash leaf n k (pos / 2 ^ k / 2)

theorem node_climb {pos : ℕ} (hpos : pos < n) (k : ℕ) :
    node hash leaf n (k + 1) (pos / 2 ^ (k + 1)) =
      if pos / 2 ^ k % 2 = 1 then
        hash (sibling hash leaf n pos k) (node hash leaf n k (pos / 2 ^ k))
      else hash (node hash leaf n k (pos / 2 ^ k)) (sibling hash leaf n pos k) := by
  have hhalf : pos / 2 ^ (k + 1) = pos / 2 ^ k / 2 := by
    rw [pow_succ, Nat.div_div_eq_div_mul]
  have hplace : pos / 2 ^ k * 2 ^ k ≤ pos := Nat.div_mul_le_self pos (2 ^ k)
  rw [hhalf, node_succ, sibling]
  generalize pos / 2 ^ k = j at hplace ⊢
  by_cases hodd : j % 2 = 1
  · -- a right child: it is within the tree
    have hleft : 2 * (j / 2) = j - 1 := by omega
    have hright : 2 * (j / 2) + 1 = j := by omega
    rw [if_pos hodd, if_pos hodd, right_of_lt (by rw [hright]; omega), hright, hleft]
  · have hleft : 2 * (j / 2) = j := by omega
    rw [if_neg hodd, if_neg hodd, hleft]

end MerkleTrees
