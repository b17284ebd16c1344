/-
`MerkleComputation` with the branch of a leaf, `ComputeMerkleBranch` and
`ComputeMerkleRootFromBranch` (`consensus/merkle.cpp`).

While the leaves are read, `matchlevel` is the slot of `inner` that depends on the leaf at
`branchpos`, and the branch holds its siblings below that level (`Stored`).  Within a loop the
same is known of the hash that is being combined (`Watching`).

  * `merkle_agrees`: root and branches, against the root level by level.
-/
import Stonecoin.Merkle

namespace Stonecoin

open MerkleTrees

variable {α : Type*}

/-! ### The computation -/

structure BranchWatch (α : Type*) where
  matchh : Bool
  branch : List α

/-- The variables of the first loop, with the branch. -/
structure BranchState (α : Type*) extends MerkleState α where
  /-- Which position in `inner` depends on the matching leaf, or -1. -/
  matchlevel : ℤ
  branch : List α

section Computation

variable [Inhabited α] [DecidableEq α] (hash : α → α → α) (pbranch : Bool)

/-- What a step of a loop adds to the branch. -/
def watchLevel (inner : ℕ → α) (matchlevel : ℤ) (level : ℕ) (h : α) (w : BranchWatch α) :
    BranchWatch α :=
  if pbranch then
    if w.matchh then { w with branch := w.branch ++ [inner level] }
    else if matchlevel = level then ⟨true, w.branch ++ [h]⟩
    else w
  else w

/-- The inner `for` loop of the first loop. -/
def combineBranch (inner : ℕ → α) (matchlevel : ℤ) (count : ℕ) :
    ℕ → ℕ → α → Bool → BranchWatch α → ℕ × α × Bool × BranchWatch α
  | 0, level, h, mutated, w => (level, h, mutated, w)
  | fuel + 1, level, h, mutated, w =>
    if count.testBit level then (level, h, mutated, w)
    else
      combineBranch inner matchlevel count fuel (level + 1) (hash (inner level) h)
        (mutated || decide (inner level = h)) (watchLevel pbranch inner matchlevel level h w)

def BranchState.addLeaf (branchpos : ℕ) (s : BranchState α) (leaf : α) : BranchState α :=
  let matchh := decide (s.count = branchpos)
  let count := (s.count + 1) % 2 ^ MERKLE_LEVELS
  let r := combineBranch hash pbranch s.inner s.matchlevel count MERKLE_LEVELS 0 leaf s.mutated
    ⟨matchh, s.branch⟩
  { count := count
    inner := Function.update s.inner r.1 r.2.1
    mutated := r.2.2.1
    matchlevel := if r.2.2.2.matchh then r.1 else s.matchlevel
    branch := r.2.2.2.branch }

def propagateBranch (inner : ℕ → α) (matchlevel : ℤ) (count : ℕ) :
    ℕ → ℕ → α → BranchWatch α → ℕ × α × BranchWatch α
  | 0, level, h, w => (level, h, w)
  | fuel + 1, level, h, w =>
    if count.testBit level then (level, h, w)
    else propagateBranch inner matchlevel count fuel (level + 1) (hash (inner level) h)
      (watchLevel pbranch inner matchlevel level h w)

def sweepBranch (inner : ℕ → α) (matchlevel : ℤ) :
    ℕ → ℕ → ℕ → α → BranchWatch α → α × BranchWatch α
  | 0, _, _, h, w => (h, w)
  | fuel + 1, count, level, h, w =>
    if count = 2 ^ level then (h, w)
    else
      let w := if pbranch && w.matchh then { w with branch := w.branch ++ [h] } else w
      let count := (count + 2 ^ level) % 2 ^ MERKLE_LEVELS
      let r := propagateBranch hash pbranch inner matchlevel count MERKLE_LEVELS (level + 1)
        (hash h h) w
      sweepBranch inner matchlevel fuel count r.1 r.2.1 r.2.2

def readBranch (branchpos : ℕ) (leaves : List α) : BranchState α :=
  leaves.foldl (fun s leaf => s.addLeaf hash pbranch branchpos leaf)
    { count := 0, inner := fun _ => default, mutated := false, matchlevel := -1, branch := [] }

/-- `MerkleComputation`: the root, the flag `mutated` and the branch. -/
def merkleComputation (leaves : List α) (branchpos : ℕ) : α × Bool × List α :=
  if leaves.isEmpty then (default, false, [])
  else
    let s := readBranch hash pbranch branchpos leaves
    let level := skipLoop s.count MERKLE_LEVELS 0
    let r := sweepBranch hash pbranch s.inner s.matchlevel MERKLE_LEVELS s.count level
      (s.inner level) ⟨decide (s.matchlevel = level), s.branch⟩
    (r.1, s.mutated, r.2.branch)

def computeMerkleBranch (leaves : List α) (position : ℕ) : List α :=
  (merkleComputation hash true leaves position).2.2

omit [Inhabited α] [DecidableEq α] in
def rootFromBranch : α → List α → ℕ → α
  | h, [], _ => h
  | h, it :: vMerkleBranch, nIndex =>
    rootFromBranch (if nIndex % 2 = 1 then hash it h else hash h it) vMerkleBranch (nIndex / 2)

def computeMerkleRootFromBranch (leaf : α) (vMerkleBranch : List α) (nIndex : ℕ) : α :=
  rootFromBranch hash leaf vMerkleBranch nIndex

end Computation

variable {hash : α → α → α} {pbranch : Bool} {leaf : ℕ → α} {N pos n : ℕ} {inner : ℕ → α}
  {matchlevel : ℤ} {w : BranchWatch α}

/-! ### The root and the flag -/

section Root

variable [DecidableEq α]

variable (hash pbranch inner matchlevel) in
theorem combineBranch_eq : ∀ (count fuel level : ℕ) (h : α) (mutated : Bool) (w : BranchWatch α),
    let r := combineBranch hash pbranch inner matchlevel count fuel level h mutated w
    (r.1, r.2.1, r.2.2.1) = combineLoop hash inner count fuel level h mutated
  | _, 0, _, _, _, _ => rfl
  | count, fuel + 1, level, h, mutated, w => by
    rw [combineBranch, combineLoop]
    split
    · rfl
    · exact combineBranch_eq count fuel (level + 1) _ _ _

theorem addLeaf_toMerkleState (branchpos : ℕ) (s : BranchState α) (a : α) :
    (s.addLeaf hash pbranch branchpos a).toMerkleState = s.toMerkleState.addLeaf hash a := by
  have heq := combineBranch_eq hash pbranch s.inner s.matchlevel
    ((s.count + 1) % 2 ^ MERKLE_LEVELS) MERKLE_LEVELS 0 a s.mutated
    ⟨decide (s.count = branchpos), s.branch⟩
  rw [MerkleState.addLeaf, ← heq]
  rfl

theorem readBranch_toMerkleState [Inhabited α] (branchpos : ℕ) (leaves : List α) :
    (readBranch hash pbranch branchpos leaves).toMerkleState = readLeaves hash leaves := by
  have hfold : ∀ (l : List α) (s : BranchState α),
      (l.foldl (fun s a => s.addLeaf hash pbranch branchpos a) s).toMerkleState =
        l.foldl (fun s a => s.addLeaf hash a) s.toMerkleState := by
    intro l
    induction l with
    | nil => exact fun _ => rfl
    | cons a l ih =>
      intro s
      rw [List.foldl_cons, List.foldl_cons, ih, addLeaf_toMerkleState]
  exact hfold leaves _

omit [DecidableEq α] in
variable (hash pbranch inner matchlevel) in
theorem propagateBranch_eq : ∀ (count fuel level : ℕ) (h : α) (w : BranchWatch α),
    let r := propagateBranch hash pbranch inner matchlevel count fuel level h w
    (r.1, r.2.1) = propagateLoop hash inner count fuel level h
  | _, 0, _, _, _ => rfl
  | count, fuel + 1, level, h, w => by
    rw [propagateBranch, propagateLoop]
    split
    · rfl
    · exact propagateBranch_eq count fuel (level + 1) _ _

omit [DecidableEq α] in
variable (hash pbranch inner matchlevel) in
theorem sweepBranch_eq : ∀ (fuel count level : ℕ) (h : α) (w : BranchWatch α),
    (sweepBranch hash pbranch inner matchlevel fuel count level h w).1 =
      sweepLoop hash inner fuel count level h
  | 0, _, _, _, _ => rfl
  | fuel + 1, count, level, h, w => by
    rw [sweepBranch, sweepLoop]
    split
    · rfl
    · dsimp only
      rw [sweepBranch_eq fuel, ← propagateBranch_eq hash pbranch inner matchlevel]

theorem merkleComputation_root [Inhabited α] (leaves : List α) (branchpos : ℕ) :
    let r := merkleComputation hash pbranch leaves branchpos
    (r.1, r.2.1) = computeMerkleRoot hash leaves := by
  rw [merkleComputation, computeMerkleRoot]
  split
  · rfl
  · have hread : (readBranch hash pbranch branchpos leaves).toMerkleState =
        readLeaves hash leaves := readBranch_toMerkleState branchpos leaves
    dsimp only
    rw [sweepBranch_eq, hread]

end Root

/-! ### The watched leaf -/

variable (hash leaf N pos) in
def siblings (level : ℕ) : List α := (List.range level).map (sibling hash leaf N pos)

theorem siblings_succ (level : ℕ) : siblings hash leaf N pos (level + 1) =
    siblings hash leaf N pos level ++ [sibling hash leaf N pos level] := by
  rw [siblings, siblings, List.range_succ, List.map_append]
  rfl

variable (hash leaf N pos n) in
/-- Between two leaves: the watched leaf has not been read, or the subtree that it is in is in the
slot `matchlevel`. -/
inductive Stored : ℤ → List α → Prop
  | unread : n ≤ pos → Stored (-1) []
  | stored {L : ℕ} : n.testBit L = true → pos / 2 ^ L = n / 2 ^ L - 1 →
    Stored L (siblings hash leaf N pos L)

variable (hash leaf N pos n) in
/-- Within a loop, at a node of a level: the watched leaf is below the node, or it has not been
read, or it is in a slot from this level on. -/
inductive Watching (level place : ℕ) : ℤ → BranchWatch α → Prop
  | below {matchlevel : ℤ} : pos / 2 ^ level = place →
    Watching level place matchlevel ⟨true, siblings hash leaf N pos level⟩
  | unread : n < pos → Watching level place (-1) ⟨false, []⟩
  | stored {L : ℕ} : level ≤ L → n.testBit L = true → pos / 2 ^ L = n / 2 ^ L - 1 →
    Watching level place L ⟨false, siblings hash leaf N pos L⟩

namespace Watching

variable {level t : ℕ}

theorem step (h : Watching hash leaf N pos n level (2 * t + 1) matchlevel w)
    (hdiv : n / 2 ^ level = 2 * t + 1) (hplace : (2 * t + 1) * 2 ^ level < N)
    (hleft : inner level = node hash leaf N level (2 * t)) :
    Watching hash leaf N pos n (level + 1) t matchlevel
      (watchLevel true inner matchlevel level (node hash leaf N level (2 * t + 1)) w) := by
  have hhalf : pos / 2 ^ (level + 1) = pos / 2 ^ level / 2 := by
    rw [pow_succ, Nat.div_div_eq_div_mul]
  cases h with
  | below hpos =>
    -- the watched leaf is on the right
    have hsibling : sibling hash leaf N pos level = inner level := by
      rw [sibling, hpos, if_pos (by omega), hleft]
      rfl
    rw [watchLevel, if_pos rfl, if_pos rfl, ← hsibling]
    show Watching _ _ _ _ _ _ _ _ ⟨true, _⟩
    rw [← siblings_succ]
    exact .below (by omega)
  | unread hunread =>
    have hne : ¬ (-1 : ℤ) = level := by omega
    rw [watchLevel, if_pos rfl, if_neg (by simp), if_neg hne]
    exact .unread hunread
  | @stored L hle hset hpos =>
    rw [watchLevel, if_pos rfl, if_neg (by simp)]
    rcases Nat.eq_or_lt_of_le hle with rfl | hlt
    · -- on the left
      have hsibling : sibling hash leaf N pos level = node hash leaf N level (2 * t + 1) := by
        have htwo : 2 * t + 1 - 1 = 2 * t := rfl
        rw [sibling, hpos, hdiv, htwo, if_neg (by omega), Nat.mul_div_cancel_left _ two_pos,
          right_of_lt hplace]
      rw [if_pos rfl, ← hsibling, ← siblings_succ]
      exact .below (by omega)
    · rw [if_neg (by omega)]
      exact .stored hlt hset hpos

end Watching

theorem slot_lt {level L : ℕ} (hle : level ≤ L) (hset : n.testBit L = true) {t : ℕ}
    (heven : n / 2 ^ level = 2 * t) : level < L := by
  refine lt_of_le_of_ne hle ?_
  rintro rfl
  rw [testBit_eq_div, heven] at hset
  simp at hset

theorem Stored.start {branch : List α} (h : Stored hash leaf N pos n matchlevel branch) :
    Watching hash leaf N pos n 0 n matchlevel ⟨decide (n = pos), branch⟩ := by
  cases h with
  | unread hle =>
    by_cases heq : n = pos
    · subst heq
      rw [decide_eq_true rfl]
      exact .below (by simp)
    · rw [decide_eq_false heq]
      exact .unread (by omega)
  | @stored L hset hpos =>
    have hne : n ≠ pos := by
      rintro rfl
      rw [testBit_eq_div] at hset
      simp only [decide_eq_true_eq] at hset
      omega
    rw [decide_eq_false hne]
    exact .stored (Nat.zero_le L) hset hpos

theorem Watching.finish {top p : ℕ} (htop : 2 ^ top * (2 * p + 1) = n + 1)
    (h : Watching hash leaf N pos n top (2 * p) matchlevel w) :
    Stored hash leaf N pos (n + 1) (if w.matchh then (top : ℤ) else matchlevel) w.branch := by
  have hdiv : (n + 1) / 2 ^ top = 2 * p + 1 := by
    rw [← htop, Nat.mul_div_cancel_left _ (Nat.two_pow_pos top)]
  cases h with
  | below hpos =>
    rw [if_pos rfl]
    refine .stored ?_ ?_
    · rw [testBit_eq_div, hdiv]
      simp
    · rw [hpos, hdiv]
      rfl
  | unread hlt => exact .unread hlt
  | @stored L hle hset hpos =>
    have hlt : top < L := slot_lt hle hset (t := p) (by rw [pred_div htop]; rfl)
    have hsame := pred_div_above htop hlt
    rw [if_neg (by simp)]
    refine .stored ?_ ?_
    · rwa [testBit_eq_div, ← hsame, ← testBit_eq_div]
    · rw [hpos, hsame]

section FirstLoop

variable [DecidableEq α]

theorem combineBranch_spec
    (hinner : ∀ j, n.testBit j = true → inner j = perfect hash leaf j (n / 2 ^ j - 1))
    (hN : n + 1 ≤ N) : ∀ {fuel level q : ℕ} {mutated : Bool} {w : BranchWatch α}, 0 < q →
      2 ^ level * q = n + 1 → n + 1 < 2 ^ (level + fuel) →
      Watching hash leaf N pos n level (q - 1) matchlevel w →
      let r := combineBranch hash true inner matchlevel (n + 1) fuel level
        (perfect hash leaf level (q - 1)) mutated w
      ∃ p, 2 ^ r.1 * (2 * p + 1) = n + 1 ∧
        Watching hash leaf N pos n r.1 (2 * p) matchlevel r.2.2.2
  | 0, level, q, mutated, w, hq, hm, hfuel, _ => by
    rw [← hm] at hfuel
    exact absurd rfl (fuel_pos hq hfuel)
  | fuel + 1, level, q, mutated, w, hq, hm, hfuel, hw => by
    have hbit : (n + 1).testBit level = decide (q % 2 = 1) := by rw [← hm, testBit_mul]
    rw [combineBranch, hbit]
    rcases Nat.even_or_odd' q with ⟨t, rfl | rfl⟩
    · obtain ⟨t, rfl⟩ : ∃ u, t = u + 1 := ⟨t - 1, by omega⟩
      have hpred : 2 * (t + 1) - 1 = 2 * t + 1 := rfl
      obtain ⟨hdiv, hleft⟩ := inner_of_carry hinner hm
      -- both nodes are complete subtrees of the whole list
      have hend : (2 * t + 1 + 1) * 2 ^ level ≤ N := by
        rw [mul_comm, show 2 * t + 1 + 1 = 2 * (t + 1) by ring, hm]
        exact hN
      have hplace : (2 * t + 1) * 2 ^ level < N := by
        have hpos := Nat.two_pow_pos level
        rw [Nat.succ_mul] at hend
        omega
      have hnode : node hash leaf N level (2 * t + 1) = perfect hash leaf level (2 * t + 1) :=
        node_eq_perfect hend
      have hnode' : inner level = node hash leaf N level (2 * t) := by
        rw [hleft, node_eq_perfect hplace.le]
      rw [hpred] at hw ⊢
      have hstep := hw.step hdiv hplace hnode'
      have hup : 2 ^ (level + 1) * (t + 1) = n + 1 := by
        rw [← hm, pow_succ]
        ring
      have hcombined : hash (inner level) (perfect hash leaf level (2 * t + 1)) =
          perfect hash leaf (level + 1) (t + 1 - 1) := by
        rw [hleft]
        rfl
      rw [hnode] at hstep
      rw [if_neg (by simp), hcombined]
      exact combineBranch_spec hinner hN (Nat.succ_pos t) hup
        (by rwa [Nat.add_right_comm, Nat.add_assoc]) hstep
    · rw [if_pos (by simp)]
      exact ⟨t, hm, hw⟩

theorem Stored.addLeaf {s : BranchState α} (hs : Leaves hash leaf n s.toMerkleState)
    (h : Stored hash leaf N pos n s.matchlevel s.branch) (hN : n + 1 ≤ N)
    (hcap : n + 1 < 2 ^ MERKLE_LEVELS) :
    let s' := s.addLeaf hash true pos (leaf n)
    Stored hash leaf N pos (n + 1) s'.matchlevel s'.branch := by
  have hfuel : n + 1 < 2 ^ (0 + MERKLE_LEVELS) := by simpa using hcap
  have hstart := h.start
  have hwhole : 2 ^ 0 * (n + 1) = n + 1 := by simp
  simp only [BranchState.addLeaf, hs.count, Nat.mod_eq_of_lt hcap]
  obtain ⟨p, htop, hw⟩ := combineBranch_spec hs.inner hN (Nat.succ_pos n) hwhole hfuel hstart
  exact hw.finish htop

theorem Stored.foldl : ∀ {l : List α} {n : ℕ} {s : BranchState α},
    Leaves hash leaf n s.toMerkleState → Stored hash leaf N pos n s.matchlevel s.branch →
    (∀ i, (h : i < l.length) → l[i] = leaf (n + i)) → n + l.length ≤ N → N < 2 ^ MERKLE_LEVELS →
    let s' := l.foldl (fun s a => s.addLeaf hash true pos a) s
    Stored hash leaf N pos (n + l.length) s'.matchlevel s'.branch
  | [], n, s, _, h, _, _, _ => h
  | a :: l, n, s, hs, h, hleaf, hlen, hcap => by
    rw [List.length_cons] at hlen
    obtain rfl : a = leaf n := hleaf 0 (by simp)
    have hs' : Leaves hash leaf (n + 1) (s.addLeaf hash true pos (leaf n)).toMerkleState := by
      rw [addLeaf_toMerkleState]
      exact hs.addLeaf (by omega)
    rw [List.foldl_cons, List.length_cons, show n + (l.length + 1) = n + 1 + l.length by omega]
    refine Stored.foldl hs' (h.addLeaf hs (by omega) (by omega)) (fun i hi => ?_) (by omega) hcap
    have := hleaf (i + 1) (by simpa using hi)
    rwa [List.getElem_cons_succ, show n + (i + 1) = n + 1 + i by omega] at this

end FirstLoop

/-! ### The sweep -/

theorem propagateBranch_spec {count : ℕ}
    (hinner : ∀ j, N.testBit j = true → inner j = perfect hash leaf j (N / 2 ^ j - 1))
    (hstrict : N < count) : ∀ {fuel level q : ℕ} {w : BranchWatch α}, Swept N count level q →
      count < 2 ^ (level + fuel) → Watching hash leaf N pos N level (q - 1) matchlevel w →
      let r := propagateBranch hash true inner matchlevel count fuel level
        (node hash leaf N level (q - 1)) w
      ∃ p, Swept N count r.1 (2 * p + 1) ∧ r.2.1 = node hash leaf N r.1 (2 * p) ∧
        Watching hash leaf N pos N r.1 (2 * p) matchlevel r.2.2 ∧ level ≤ r.1
  | 0, level, q, w, h, hfuel, _ => by
    rw [h.count_eq] at hfuel
    exact absurd rfl (fuel_pos h.pos hfuel)
  | fuel + 1, level, q, w, h, hfuel, hw => by
    have hbit : count.testBit level = decide (q % 2 = 1) := by rw [h.count_eq, testBit_mul]
    rw [propagateBranch, hbit]
    rcases Nat.even_or_odd' q with ⟨t, rfl | rfl⟩
    · obtain ⟨t, rfl⟩ : ∃ u, t = u + 1 := ⟨t - 1, by have := h.pos; omega⟩
      have hpred : 2 * (t + 1) - 1 = 2 * t + 1 := rfl
      obtain ⟨hdiv, hplace, hleft⟩ := inner_of_swept hinner hstrict h
      rw [hpred] at hw ⊢
      have hstep := hw.step hdiv hplace hleft
      have hcombined : hash (inner level) (node hash leaf N level (2 * t + 1)) =
          node hash leaf N (level + 1) (t + 1 - 1) := by
        rw [hleft, show t + 1 - 1 = t from rfl, node_succ, right_of_lt hplace]
      rw [if_neg (by simp), hcombined]
      obtain ⟨p, hswept, hnode, hwatch, hle⟩ := propagateBranch_spec hinner hstrict h.up
        (by rwa [Nat.add_right_comm, Nat.add_assoc]) hstep
      exact ⟨p, hswept, hnode, hwatch, by omega⟩
    · rw [if_pos (by simp)]
      exact ⟨t, h, rfl, hw, le_rfl⟩

theorem Watching.top {level : ℕ} (hpos : pos < N) (h : Swept N (2 ^ level) level 1)
    (hw : Watching hash leaf N pos N level 0 matchlevel w)
    (hnext : w.matchh = false → matchlevel ≠ level) :
    w.branch = siblings hash leaf N pos (Nat.clog 2 N) := by
  rw [← h.eq_clog]
  cases hw with
  | below _ => rfl
  | unread hlt => omega
  | @stored L hle hset _ =>
    -- a slot above the top would hold more leaves than there are
    have hne : level ≠ L := fun heq => hnext rfl (by rw [heq])
    have hlt : 2 ^ level < 2 ^ L := Nat.pow_lt_pow_right one_lt_two (by omega)
    have hge : 2 ^ L ≤ N := Nat.ge_two_pow_of_testBit hset
    have hupper := h.upper
    omega

theorem Watching.next {level place t : ℕ} (hpos : pos < N)
    (hw : Watching hash leaf N pos N level place matchlevel w) (heven : N / 2 ^ level = 2 * t) :
    w.matchh = false → matchlevel ≠ level := by
  intro hunmatched
  cases hw with
  | below _ => cases hunmatched
  | unread hlt => omega
  | @stored L hle hset _ =>
    have hlt := slot_lt hle hset heven
    omega

theorem Stored.sweep {branch : List α} {top p : ℕ} (hpos : pos < N)
    (h : Stored hash leaf N pos N matchlevel branch) (hstart : Swept N N top (2 * p + 1))
    (hdiv : N / 2 ^ top = 2 * p + 1) :
    Watching hash leaf N pos N top (2 * p) matchlevel ⟨decide (matchlevel = top), branch⟩ ∧
      (decide (matchlevel = top) = false → matchlevel ≠ top) := by
  refine ⟨?_, of_decide_eq_false⟩
  cases h with
  | unread hle => omega
  | @stored L hset hplace =>
    have hle : top ≤ L := by
      by_contra hlt
      rw [hstart.count_eq, testBit_below (by omega)] at hset
      cases hset
    by_cases heq : L = top
    · subst heq
      rw [decide_eq_true rfl]
      exact .below (by omega)
    · rw [decide_eq_false (by omega)]
      exact .stored hle hset hplace

theorem Watching.round {count level p : ℕ} (h : Swept N count level (2 * p + 1))
    (hw : Watching hash leaf N pos N level (2 * p) matchlevel w)
    (hnext : w.matchh = false → matchlevel ≠ level) :
    Watching hash leaf N pos N (level + 1) p matchlevel
      (if true && w.matchh then { w with branch := w.branch ++ [node hash leaf N level (2 * p)] }
        else w) := by
  have hhalf : pos / 2 ^ (level + 1) = pos / 2 ^ level / 2 := by
    rw [pow_succ, Nat.div_div_eq_div_mul]
  cases hw with
  | below hpos =>
    have hsibling : sibling hash leaf N pos level = node hash leaf N level (2 * p) := by
      rw [sibling, hpos, if_neg (by omega), Nat.mul_div_cancel_left _ two_pos,
        right_of_le h.alone]
    rw [if_pos (by simp), ← hsibling, ← siblings_succ]
    exact .below (by omega)
  | unread hlt => exact .unread hlt
  | @stored L hle hset hpos =>
    have hne : level ≠ L := fun heq => hnext rfl (by rw [heq])
    rw [if_neg (by simp)]
    exact .stored (by omega) hset hpos

theorem sweepBranch_spec
    (hinner : ∀ j, N.testBit j = true → inner j = perfect hash leaf j (N / 2 ^ j - 1))
    (hpos : pos < N) (hclog : Nat.clog 2 N < MERKLE_LEVELS) :
    ∀ {fuel count level p : ℕ} {w : BranchWatch α}, Swept N count level (2 * p + 1) →
      MERKLE_LEVELS ≤ level + fuel → Watching hash leaf N pos N level (2 * p) matchlevel w →
      (w.matchh = false → matchlevel ≠ level) →
      (sweepBranch hash true inner matchlevel fuel count level (node hash leaf N level (2 * p))
        w).2.branch = siblings hash leaf N pos (Nat.clog 2 N)
  | 0, count, level, p, w, h, hfuel, _, _ => by
    have := h.height
    omega
  | fuel + 1, count, level, p, w, h, hfuel, hw, hnext => by
    rw [sweepBranch]
    by_cases hp : p = 0
    · subst hp
      have hone := h.eq_pow_iff.mpr rfl
      rw [hone] at h
      rw [if_pos hone]
      exact hw.top hpos h hnext
    · have hup := h.round hp
      have hself : hash (node hash leaf N level (2 * p)) (node hash leaf N level (2 * p)) =
          node hash leaf N (level + 1) (p + 1 - 1) := by
        rw [show p + 1 - 1 = p from rfl, node_succ, right_of_le h.alone]
      obtain ⟨hstrict, hcap, hfuel'⟩ := h.carry hp hclog
      have hround := hw.round h hnext
      obtain ⟨q, hswept, hnode, hwatch, htop⟩ :=
        propagateBranch_spec hinner hstrict hup hfuel' hround
      rw [if_neg (h.more hp)]
      simp only [Nat.mod_eq_of_lt hcap, hself]
      rw [hnode]
      exact sweepBranch_spec hinner hpos hclog hswept (by omega) hwatch
        (hwatch.next hpos (hswept.div_eq hstrict))

/-! ### Root and branches -/

variable (hash) in
theorem rootFromBranch_siblings (leaf : ℕ → α) (hpos : pos < N) : ∀ (d k : ℕ),
    rootFromBranch hash (node hash leaf N k (pos / 2 ^ k))
      ((List.range d).map fun j => sibling hash leaf N pos (k + j)) (pos / 2 ^ k) =
        node hash leaf N (k + d) (pos / 2 ^ (k + d))
  | 0, _ => rfl
  | d + 1, k => by
    have hrest := rootFromBranch_siblings leaf hpos d (k + 1)
    have hlist : (List.range (d + 1)).map (fun j => sibling hash leaf N pos (k + j)) =
        sibling hash leaf N pos k ::
          (List.range d).map fun j => sibling hash leaf N pos (k + 1 + j) := by
      rw [List.range_succ_eq_map, List.map_cons, List.map_map]
      congr 1
      apply List.map_congr_left
      intro j _
      show sibling hash leaf N pos (k + (j + 1)) = _
      rw [show k + (j + 1) = k + 1 + j by omega]
    have hhalf : pos / 2 ^ k / 2 = pos / 2 ^ (k + 1) := by
      rw [pow_succ, Nat.div_div_eq_div_mul]
    rw [hlist, rootFromBranch, ← node_climb hpos, hhalf, hrest,
      show k + 1 + d = k + (d + 1) by omega]

variable (hash) in
theorem levelRoot_nodes [Inhabited α] (leaf : ℕ → α) {count level q : ℕ}
    (h : Swept N count level q) :
    levelRoot hash ((List.range q).map (node hash leaf N level)) = root hash leaf N ∧
      levelCount hash ((List.range q).map (node hash leaf N level)) + level = Nat.clog 2 N := by
  -- induction on the number of nodes
  induction q using Nat.strongRecOn generalizing count level with
  | ind q ih =>
    rw [levelRoot, levelCount, List.length_map, List.length_range]
    by_cases hq : q ≤ 1
    · obtain rfl : q = 1 := Nat.le_antisymm hq h.pos
      have hone := h.eq_pow_iff.mpr rfl
      rw [hone] at h
      rw [if_pos hq, if_pos hq, Nat.zero_add, root, h.eq_clog]
      exact ⟨rfl, rfl⟩
    · have hhalf : pairUp hash ((List.range q).map (node hash leaf N level)) =
          (List.range ((q + 1) / 2)).map (node hash leaf N (level + 1)) := by
        rw [pairUp_map_range]
        apply List.map_congr_left
        intro i _
        -- the nodes of a level that there are
        have hright : 2 * i + 1 < q ↔ (2 * i + 1) * 2 ^ level < N := by
          rw [mul_comm (2 * i + 1)]
          constructor
          · intro hlt
            have hle : 2 * i + 1 ≤ q - 1 := by omega
            exact lt_of_le_of_lt (Nat.mul_le_mul_left _ hle) h.lower
          · intro hlt
            have hupper := lt_of_lt_of_le hlt h.upper
            rw [h.count_eq] at hupper
            exact Nat.lt_of_mul_lt_mul_left hupper
        rw [node_succ, right]
        simp only [hright]
      rw [if_neg hq, if_neg hq, hhalf]
      have hnext : ∃ count, Swept N count (level + 1) ((q + 1) / 2) := by
        rcases Nat.even_or_odd' q with ⟨t, rfl | rfl⟩
        · obtain ⟨t, rfl⟩ : ∃ u, t = u + 1 := ⟨t - 1, by omega⟩
          rw [show (2 * (t + 1) + 1) / 2 = t + 1 by omega]
          exact ⟨_, h.up⟩
        · rw [show (2 * t + 1 + 1) / 2 = t + 1 by omega]
          exact ⟨_, h.round (by omega)⟩
      obtain ⟨count', hswept⟩ := hnext
      obtain ⟨hroot, hcount⟩ := ih ((q + 1) / 2) (by omega) hswept
      exact ⟨hroot, by omega⟩

section Branches

variable [Inhabited α] [DecidableEq α]

theorem merkleComputation_branch (hash : α → α → α) {leaves : List α}
    (hlen : leaves.length ≤ 2 ^ (MERKLE_LEVELS - 1)) {pos : ℕ} (hpos : pos < leaves.length) :
    computeMerkleBranch hash leaves pos = siblings hash (leafAt leaves) leaves.length pos
      (Nat.clog 2 leaves.length) := by
  have hcap : leaves.length < 2 ^ MERKLE_LEVELS :=
    lt_of_le_of_lt hlen (Nat.pow_lt_pow_right one_lt_two (by decide))
  have hclog : Nat.clog 2 leaves.length < MERKLE_LEVELS :=
    lt_of_le_of_lt (Nat.clog_le_of_le_pow hlen) (by decide)
  have hne : leaves ≠ [] := List.ne_nil_of_length_pos (by omega)
  have hread : Leaves hash (leafAt leaves) leaves.length
      (readBranch hash true pos leaves).toMerkleState := by
    rw [readBranch_toMerkleState]
    exact readLeaves_leaves hcap
  have hstored : Stored hash (leafAt leaves) leaves.length pos leaves.length
      (readBranch hash true pos leaves).matchlevel (readBranch hash true pos leaves).branch := by
    have hall : Stored hash (leafAt leaves) leaves.length pos (0 + leaves.length)
        (readBranch hash true pos leaves).matchlevel (readBranch hash true pos leaves).branch :=
      Stored.foldl (.nil _) (.unread (Nat.zero_le _))
        (fun i hi => by rw [Nat.zero_add, leafAt_of_lt hi]) (by omega) hcap
    rwa [Nat.zero_add] at hall
  obtain ⟨top, p, htop, hdiv, hstart, hfirst⟩ :=
    sweep_start hash (leafAt leaves) (by omega : 0 < leaves.length) hcap
  rw [computeMerkleBranch, merkleComputation, if_neg (by simpa using hne)]
  simp only [hread.count, htop]
  rw [hfirst _ hread.inner]
  obtain ⟨hwatch, hnext⟩ := hstored.sweep hpos hstart hdiv
  exact sweepBranch_spec hread.inner hpos hclog hstart (by omega) hwatch hnext

/-- **Roots and branches**, for every list of leaves that is not empty: the root is the one that
is computed level by level, and the branch of each leaf leads to it and has an element for each
level below it. -/
theorem merkle_agrees (hash : α → α → α) {leaves : List α} (hne : leaves ≠ [])
    (hlen : leaves.length ≤ 2 ^ 31) :
    (computeMerkleRoot hash leaves).1 = levelRoot hash leaves ∧
      (∀ pbranch branchpos,
        (merkleComputation hash pbranch leaves branchpos).1 = levelRoot hash leaves) ∧
      ∀ i, (hi : i < leaves.length) →
        computeMerkleRootFromBranch hash leaves[i] (computeMerkleBranch hash leaves i) i =
          levelRoot hash leaves ∧
        (computeMerkleBranch hash leaves i).length = levelCount hash leaves := by
  have hpos : 0 < leaves.length := List.length_pos_iff.mpr hne
  have hleaves : (List.range leaves.length).map (node hash (leafAt leaves) leaves.length 0) =
      leaves := by
    apply List.ext_getElem
    · simp
    · intro i _ hi
      simp [node, leafAt_of_lt hi]
  have hbottom : Swept leaves.length leaves.length 0 leaves.length :=
    ⟨by simp, hpos, by simp; omega, le_rfl, Nat.zero_le _⟩
  obtain ⟨hroot, hcount⟩ : levelRoot hash leaves = root hash (leafAt leaves) leaves.length ∧
      levelCount hash leaves + 0 = Nat.clog 2 leaves.length := by
    have hnodes := levelRoot_nodes hash (leafAt leaves) hbottom
    rwa [hleaves] at hnodes
  have hcomputed : (computeMerkleRoot hash leaves).1 = levelRoot hash leaves :=
    (computeMerkleRoot_eq hash hne hlen).1.trans hroot.symm
  refine ⟨hcomputed, fun pbranch branchpos => ?_, fun i hi => ?_⟩
  · have heq : (merkleComputation hash pbranch leaves branchpos).1 =
        (computeMerkleRoot hash leaves).1 :=
      congrArg Prod.fst (merkleComputation_root leaves branchpos)
    exact heq.trans hcomputed
  · have hpath := rootFromBranch_siblings hash (leafAt leaves) hi
      (Nat.clog 2 leaves.length) 0
    have htop : i / 2 ^ Nat.clog 2 leaves.length = 0 :=
      Nat.div_eq_of_lt (hi.trans_le (Nat.le_pow_clog one_lt_two leaves.length))
    rw [merkleComputation_branch hash hlen hi, hroot]
    refine ⟨?_, by simp [siblings, ← hcount]⟩
    simp only [Nat.zero_add, htop, pow_zero, Nat.div_one] at hpath
    rw [computeMerkleRootFromBranch, ← leafAt_of_lt hi]
    exact hpath

/-- The last of five leaves is paired with itself twice. -/
theorem merkle_agrees_five :
    computeMerkleRootFromBranch (fun a b : ℕ => 10 * a + b) 5
        (computeMerkleBranch (fun a b : ℕ => 10 * a + b) [1, 2, 3, 4, 5] 4) 4 =
      levelRoot (fun a b : ℕ => 10 * a + b) [1, 2, 3, 4, 5] ∧
    (computeMerkleBranch (fun a b : ℕ => 10 * a + b) [1, 2, 3, 4, 5] 4).length =
      levelCount (fun a b : ℕ => 10 * a + b) [1, 2, 3, 4, 5] := by
  have hall := merkle_agrees (fun a b : ℕ => 10 * a + b) (List.cons_ne_nil 1 [2, 3, 4, 5])
    (by decide)
  exact hall.2.2 4 (by decide)

end Branches

end Stonecoin
