/-
What the flag `mutated` of the merkle root is for.

The flag is not looked for in the sweep, so a list whose own padding repeats its last subtree
goes unflagged.  But two lists that share a root differ in a duplicate of complete subtrees,
and the longer one reports it (`mutated_of_le`).  A block that has been accepted carries the
root of an unflagged list; any other list under its header either has another root or the
flag, and both rejections leave the hash of the block valid (`mutated_of_root_eq`).

No hash of 256-bit values is injective on all of them.  What is asked of it is that it has
no collision among the nodes of the two trees.
-/
import Stonecoin.CheckBlock
import Stonecoin.Merkle

namespace Stonecoin

open MerkleTrees

variable {α : Type*} [Inhabited α] {hash : α → α → α}

/-! ### Lists with one root -/

/-- **The pair hash taken as injective**: it has no collision among the values that the two
trees are made of, and no leaf is the hash of a pair of them. -/
def HashInjective (hash : α → α → α) (l₁ l₂ : List α) : Prop :=
  CollisionFree hash
    (nodes hash (leafAt l₁) l₁.length ∪ nodes hash (leafAt l₂) l₂.length) { x | x ∈ l₁ ∨ x ∈ l₂ }

theorem HashInjective.symm {l₁ l₂ : List α} (h : HashInjective hash l₁ l₂) :
    HashInjective hash l₂ l₁ := by
  rw [HashInjective, Set.union_comm]
  exact ⟨h.inj, fun x hx => h.leaf x hx.symm⟩

variable [DecidableEq α]

theorem mutated_of_le {l₁ l₂ : List α} (hfree : HashInjective hash l₁ l₂) (hpos : l₁ ≠ [])
    (hle : l₁.length ≤ l₂.length) (hlen : l₂.length ≤ 2 ^ (MERKLE_LEVELS - 1)) (hne : l₁ ≠ l₂)
    (hroot : (computeMerkleRoot hash l₁).1 = (computeMerkleRoot hash l₂).1) :
    (computeMerkleRoot hash l₂).2 = true := by
  have hlength : 0 < l₁.length := List.length_pos_iff.mpr hpos
  have hpos₂ : l₂ ≠ [] := List.length_pos_iff.mp (hlength.trans_le hle)
  have h₁ := computeMerkleRoot_eq hash hpos (hle.trans hlen)
  have h₂ := computeMerkleRoot_eq hash hpos₂ hlen
  rw [h₁.1, h₂.1] at hroot
  have hfirst : leafAt l₁ 0 ∈ { x | x ∈ l₁ ∨ x ∈ l₂ } := by
    rw [leafAt_of_lt hlength]
    exact .inl (List.getElem_mem hlength)
  rcases duplicated_of_root_eq hfree Set.subset_union_left Set.subset_union_right hfirst hlength
    hle hroot with ⟨hsame, hleaves⟩ | hdup
  · -- the same leaves at all places
    refine absurd (List.ext_getElem hsame fun i hi hi' => ?_) hne
    rw [← leafAt_of_lt hi, ← leafAt_of_lt hi']
    exact hleaves i hi
  · exact h₂.2.mpr hdup

theorem mutated_or_mutated {l₁ l₂ : List α} (hfree : HashInjective hash l₁ l₂) (h₁ : l₁ ≠ [])
    (h₂ : l₂ ≠ []) (hlen₁ : l₁.length ≤ 2 ^ (MERKLE_LEVELS - 1))
    (hlen₂ : l₂.length ≤ 2 ^ (MERKLE_LEVELS - 1)) (hne : l₁ ≠ l₂)
    (hroot : (computeMerkleRoot hash l₁).1 = (computeMerkleRoot hash l₂).1) :
    (computeMerkleRoot hash l₁).2 = true ∨ (computeMerkleRoot hash l₂).2 = true := by
  rcases Nat.le_total l₁.length l₂.length with hle | hle
  · exact .inr (mutated_of_le hfree h₁ hle hlen₂ hne hroot)
  · exact .inl (mutated_of_le hfree.symm h₂ hle hlen₁ hne.symm hroot.symm)

/-! ### The block check -/

theorem root_of_checkBlock {env : CheckBlockEnv} {block b : CBlock} {fCheckPOW : Bool}
    (hf : block.fChecked = false) (h : checkBlock env block fCheckPOW true = .ok b) :
    block.hashMerkleRoot = (env.computeMerkleRoot (block.vtx.map CTransaction.hash)).1 ∧
      (env.computeMerkleRoot (block.vtx.map CTransaction.hash)).2 = false := by
  have hprelude : checkBlockPrelude env block fCheckPOW true = .ok () := by
    cases hp : checkBlockPrelude env block fCheckPOW true with
    | ok u => rfl
    | error e => simp [checkBlock, hf, hp] at h
  have hroot : checkMerkleRoot env block true = .ok () := by
    rw [checkBlockPrelude] at hprelude
    cases hh : checkBlockHeader env block.toCBlockHeader fCheckPOW with
    | error e => simp [hh] at hprelude
    | ok u =>
      cases hm : checkMerkleRoot env block true with
      | ok u => rfl
      | error e => simp [hh, hm] at hprelude
  rw [checkMerkleRoot, if_pos rfl] at hroot
  by_cases heq : block.hashMerkleRoot = (env.computeMerkleRoot (block.vtx.map CTransaction.hash)).1
  · refine ⟨heq, ?_⟩
    by_contra hmut
    simp [heq, hmut, dos] at hroot
  · simp [heq, dos] at hroot

theorem corrupt_of_checkMerkleRoot {env : CheckBlockEnv} {block : CBlock} {fCheckPOW : Bool}
    (hf : block.fChecked = false)
    (hheader : checkBlockHeader env block.toCBlockHeader fCheckPOW = .ok ())
    (h : block.hashMerkleRoot = (env.computeMerkleRoot (block.vtx.map CTransaction.hash)).1 →
      (env.computeMerkleRoot (block.vtx.map CTransaction.hash)).2 = true) :
    ∃ e, checkBlock env block fCheckPOW true = .error e ∧ e.corruptionPossible = true := by
  rw [checkBlock, if_neg (by simp [hf]), checkBlockPrelude, hheader]
  by_cases heq : block.hashMerkleRoot = (env.computeMerkleRoot (block.vtx.map CTransaction.hash)).1
  · simp [checkMerkleRoot, heq, h heq, dos]
  · simp [checkMerkleRoot, heq, dos]

/-- **A merkle root without the flag fixes the list.**  Two different lists with one root
set the flag for one of them.  So where a block has been accepted, a block with its header
and another list is rejected in a way that leaves its hash valid. -/
theorem mutated_of_root_eq {hash : UInt256 → UInt256 → UInt256} {l₁ l₂ : List UInt256}
    (hfree : HashInjective hash l₁ l₂) (h₁ : l₁ ≠ []) (h₂ : l₂ ≠ []) (hlen₁ : l₁.length ≤ 2 ^ 31)
    (hlen₂ : l₂.length ≤ 2 ^ 31) (hne : l₁ ≠ l₂) :
    ((computeMerkleRoot hash l₁).1 = (computeMerkleRoot hash l₂).1 →
      (computeMerkleRoot hash l₁).2 = true ∨ (computeMerkleRoot hash l₂).2 = true) ∧
    ∀ (env env' : CheckBlockEnv) (block block' b : CBlock) (fCheckPOW fCheckPOW' : Bool),
      env.computeMerkleRoot = computeMerkleRoot hash →
      env'.computeMerkleRoot = computeMerkleRoot hash →
      block.fChecked = false → checkBlock env block fCheckPOW true = .ok b →
      block'.fChecked = false → block'.toCBlockHeader = block.toCBlockHeader →
      checkBlockHeader env' block'.toCBlockHeader fCheckPOW' = .ok () →
      block.vtx.map CTransaction.hash = l₁ → block'.vtx.map CTransaction.hash = l₂ →
      ∃ e, checkBlock env' block' fCheckPOW' true = .error e ∧ e.corruptionPossible = true := by
  have hflag := mutated_or_mutated hfree h₁ h₂ hlen₁ hlen₂ hne
  refine ⟨hflag, ?_⟩
  intro env env' block block' b fCheckPOW fCheckPOW' henv henv' hf hok hf' hsame hheader hl₁ hl₂
  obtain ⟨hroot, hclean⟩ := root_of_checkBlock hf hok
  rw [henv, hl₁] at hroot hclean
  refine corrupt_of_checkMerkleRoot hf' hheader ?_
  rw [henv', hl₂]
  intro hroot'
  have hmerkle : block'.hashMerkleRoot = block.hashMerkleRoot :=
    congrArg CBlockHeader.hashMerkleRoot hsame
  rcases hflag (hroot.symm.trans (hmerkle.symm.trans hroot')) with h | h
  · rw [hclean] at h
    exact absurd h (by simp)
  · exact h

/-- A pair hash without collisions on a tree over the leaves 1, 2 and 3. -/
def pairHash (a b : UInt256) : UInt256 := a * 1000 + b + 10

/-- The nodes over the leaves 1, 2 and 3, with or without the last one repeated. -/
def nodes123 : List UInt256 := [1, 2, 3, 1012, 3013, 1015023]

theorem nodes_subset_nodes123 {l : List UInt256} (h : l ∈ [[1, 2, 3], [1, 2, 3, 3]]) :
    ∀ v ∈ nodes pairHash (leafAt l) l.length, v ∈ nodes123 := by
  have hall : ([[1, 2, 3], [1, 2, 3, 3]].all fun l => (List.range 3).all fun k =>
      (List.range 4).all fun i => decide (l.length ≤ i * 2 ^ k) ||
        nodes123.contains (node pairHash (leafAt l) l.length k i)) = true := by decide +kernel
  have hlen : l.length ≤ 4 := by
    simp only [List.mem_cons, List.not_mem_nil, or_false] at h
    rcases h with rfl | rfl <;> simp
  rintro v ⟨k, i, hk, hi, rfl⟩
  have hk' : Nat.clog 2 l.length ≤ 2 := Nat.clog_le_of_le_pow hlen
  have hi' : i ≤ i * 2 ^ k := Nat.le_mul_of_pos_right i (Nat.two_pow_pos k)
  have hnode := List.all_eq_true.mp (List.all_eq_true.mp (List.all_eq_true.mp hall l h) k
    (List.mem_range.mpr (by omega))) i (List.mem_range.mpr (by omega))
  simpa [not_le.mpr hi] using hnode

theorem hashInjective_123 : HashInjective pairHash [1, 2, 3] [1, 2, 3, 3] := by
  have hS : ∀ v ∈ nodes pairHash (leafAt [1, 2, 3]) [1, 2, 3].length ∪
      nodes pairHash (leafAt [1, 2, 3, 3]) [1, 2, 3, 3].length, v ∈ nodes123 := by
    rintro v (hv | hv)
    · exact nodes_subset_nodes123 (by simp) v hv
    · exact nodes_subset_nodes123 (by simp) v hv
  have hnodup : ((nodes123 ×ˢ nodes123).map fun p => pairHash p.1 p.2).Nodup := by decide +kernel
  have hleaf : ((nodes123 ×ˢ nodes123).all fun p =>
      !([1, 2, 3] : List UInt256).contains (pairHash p.1 p.2)) = true := by decide +kernel
  constructor
  · intro a ha b hb c hc d hd heq
    have hab : (a, b) ∈ nodes123 ×ˢ nodes123 := List.mem_product.mpr ⟨hS a ha, hS b hb⟩
    have hcd : (c, d) ∈ nodes123 ×ˢ nodes123 := List.mem_product.mpr ⟨hS c hc, hS d hd⟩
    exact Prod.mk.inj (List.inj_on_of_nodup_map hnodup hab hcd heq)
  · rintro x hx a ha b hb rfl
    have hab : (a, b) ∈ nodes123 ×ˢ nodes123 := List.mem_product.mpr ⟨hS a ha, hS b hb⟩
    have hnot := List.all_eq_true.mp hleaf (a, b) hab
    simp only [Bool.not_eq_true', List.contains_eq_mem, decide_eq_false_iff_not] at hnot
    exact hnot (by simpa using hx)

/-- The list 1, 2, 3 and the same list with the last leaf repeated share a root. -/
theorem mutated_of_root_eq_123 :
    (computeMerkleRoot pairHash [1, 2, 3]).1 = (computeMerkleRoot pairHash [1, 2, 3, 3]).1 ∧
      ((computeMerkleRoot pairHash [1, 2, 3]).2 = true ∨
        (computeMerkleRoot pairHash [1, 2, 3, 3]).2 = true) := by
  have hroot : (computeMerkleRoot pairHash [1, 2, 3]).1 =
      (computeMerkleRoot pairHash [1, 2, 3, 3]).1 := by decide +kernel
  have h := mutated_of_root_eq hashInjective_123 (by simp) (by simp) (by simp) (by simp) (by simp)
  exact ⟨hroot, h.1 hroot⟩

end Stonecoin
