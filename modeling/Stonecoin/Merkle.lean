/-
`ComputeMerkleRoot`: the binary counter of complete subtrees, and the sweep over the
rightmost branch.

While the leaves are read, `inner[level]` is the last complete subtree of each level whose
bit is set in `count` (`Leaves`), and `mutated` is set exactly when two complete subtrees
side by side were equal; the sweep, which looks for no duplicates, then computes the root of
the padded tree (`computeMerkleRoot_eq`).

The branch that `MerkleComputation` can also collect is left out here: `ComputeMerkleRoot` passes
no `pbranch`, and nothing of it flows into the root or the flag.  `count` is a 32-bit number,
and up to 2^31 leaves it does not wrap.
-/
import Stonecoin.MerkleTrees
import Mathlib.Logic.Function.Basic

namespace Stonecoin

open MerkleTrees

variable {α : Type*}

/-! ### The computation -/

section Computation

variable [Inhabited α] [DecidableEq α] (hash : α → α → α)

/-- The variables of the first loop. -/
structure MerkleState (α : Type*) where
  /-- The number of leaves read. -/
  count : ℕ
  /-- Eagerly computed subtrees by level. -/
  inner : ℕ → α
  mutated : Bool

/-- The size of `inner`, and the width of `count`. -/
def MERKLE_LEVELS : ℕ := 32

/-- The inner `for` loop of the first loop: one step for each of the lower bits of `count`
that are 0.  The result is the level it ends at, the hash and the flag. -/
def combineLoop (inner : ℕ → α) (count : ℕ) : ℕ → ℕ → α → Bool → ℕ × α × Bool
  | 0, level, h, mutated => (level, h, mutated)
  | fuel + 1, level, h, mutated =>
    if count.testBit level then (level, h, mutated)
    else
      combineLoop inner count fuel (level + 1) (hash (inner level) h)
        (mutated || decide (inner level = h))

def MerkleState.addLeaf (s : MerkleState α) (leaf : α) : MerkleState α :=
  let count := (s.count + 1) % 2 ^ MERKLE_LEVELS
  let (level, h, mutated) := combineLoop hash s.inner count MERKLE_LEVELS 0 leaf s.mutated
  { count := count, inner := Function.update s.inner level h, mutated := mutated }

def skipLoop (count : ℕ) : ℕ → ℕ → ℕ
  | 0, level => level
  | fuel + 1, level => if count.testBit level then level else skipLoop count fuel (level + 1)

/-- The inner `while` loop of the sweep: propagates the result upwards. -/
def propagateLoop (inner : ℕ → α) (count : ℕ) : ℕ → ℕ → α → ℕ × α
  | 0, level, h => (level, h)
  | fuel + 1, level, h =>
    if count.testBit level then (level, h)
    else propagateLoop inner count fuel (level + 1) (hash (inner level) h)

/-- The sweep over the rightmost branch: a value that is not the top is combined with
itself. -/
def sweepLoop (inner : ℕ → α) : ℕ → ℕ → ℕ → α → α
  | 0, _, _, h => h
  | fuel + 1, count, level, h =>
    if count = 2 ^ level then h
    else
      let count := (count + 2 ^ level) % 2 ^ MERKLE_LEVELS
      let (level, h) := propagateLoop hash inner count MERKLE_LEVELS (level + 1) (hash h h)
      sweepLoop inner fuel count level h

def readLeaves (leaves : List α) : MerkleState α :=
  leaves.foldl (fun s leaf => s.addLeaf hash leaf)
    { count := 0, inner := fun _ => default, mutated := false }

def computeMerkleRoot (leaves : List α) : α × Bool :=
  if leaves.isEmpty then (default, false)
  else
    let s := readLeaves hash leaves
    let level := skipLoop s.count MERKLE_LEVELS 0
    (sweepLoop hash s.inner MERKLE_LEVELS s.count level (s.inner level), s.mutated)

end Computation

variable {hash : α → α → α} {leaf : ℕ → α} {n : ℕ}

/-! ### The counter -/

theorem testBit_eq_div (count level : ℕ) :
    count.testBit level = decide (count / 2 ^ level % 2 = 1) :=
  Nat.testBit_eq_decide_div_mod_eq

theorem testBit_mul (q level : ℕ) : (2 ^ level * q).testBit level = decide (q % 2 = 1) := by
  rw [testBit_eq_div, Nat.mul_div_cancel_left _ (Nat.two_pow_pos level)]

/-- What the first loop has made of the first `n` leaves: for each bit of the count the last
complete subtree, and the flag when two complete subtrees side by side were equal. -/
structure Leaves (hash : α → α → α) (leaf : ℕ → α) (n : ℕ) (s : MerkleState α) : Prop where
  count : s.count = n
  inner : ∀ level, n.testBit level = true →
    s.inner level = perfect hash leaf level (n / 2 ^ level - 1)
  mutated : s.mutated = true ↔ Duplicated hash leaf n

theorem pred_div {level q n : ℕ} (h : 2 ^ level * q = n + 1) : n / 2 ^ level = q - 1 := by
  have hlt : 0 < 2 ^ level * q := by omega
  have hdiv := Nat.mul_sub_div 0 (2 ^ level) q hlt
  simpa [h] using hdiv

theorem pred_div_above {level j p n : ℕ} (h : 2 ^ level * (2 * p + 1) = n + 1) (hj : level < j) :
    n / 2 ^ j = (n + 1) / 2 ^ j := by
  obtain ⟨d, rfl⟩ : ∃ d, j = level + 1 + d := ⟨j - (level + 1), by omega⟩
  have hpos : 0 < 2 ^ level := Nat.two_pow_pos level
  have hsplit : n + 1 = 2 ^ (level + 1) * p + 2 ^ level := by
    rw [← h, pow_succ]
    ring
  have hn : n = 2 ^ (level + 1) * p + (2 ^ level - 1) := by omega
  have hlow : ∀ r, r < 2 ^ (level + 1) → (2 ^ (level + 1) * p + r) / 2 ^ (level + 1) = p := by
    intro r hr
    rw [Nat.mul_add_div (Nat.two_pow_pos _), Nat.div_eq_of_lt hr, Nat.add_zero]
  have hpow : 2 ^ (level + 1) = 2 ^ level * 2 := pow_succ 2 level
  rw [pow_add, ← Nat.div_div_eq_div_mul, ← Nat.div_div_eq_div_mul, hsplit, hlow _ (by omega)]
  have hr : n / 2 ^ (level + 1) = p := by
    rw [hn]
    exact hlow _ (by omega)
  rw [hr]

theorem testBit_below {level j q : ℕ} (hj : j < level) :
    (2 ^ level * q).testBit j = false := by
  obtain ⟨d, rfl⟩ : ∃ d, level = j + 1 + d := ⟨level - (j + 1), by omega⟩
  rw [show 2 ^ (j + 1 + d) * q = 2 ^ j * (2 * (2 ^ d * q)) by rw [pow_add, pow_succ]; ring,
    testBit_mul]
  simp

theorem fuel_pos {level q fuel : ℕ} (hq : 0 < q) (h : 2 ^ level * q < 2 ^ (level + fuel)) :
    fuel ≠ 0 := by
  rintro rfl
  have : 2 ^ level ≤ 2 ^ level * q := Nat.le_mul_of_pos_right _ hq
  rw [Nat.add_zero] at h
  omega

/-! ### One leaf -/

def DuplicatedAt (hash : α → α → α) (leaf : ℕ → α) (m level : ℕ) : Prop :=
  ∃ k i, level ≤ k ∧ (2 * i + 2) * 2 ^ k = m ∧
    perfect hash leaf k (2 * i) = perfect hash leaf k (2 * i + 1)

theorem duplicated_succ :
    Duplicated hash leaf (n + 1) ↔ Duplicated hash leaf n ∨ DuplicatedAt hash leaf (n + 1) 0 := by
  constructor
  · rintro ⟨k, i, hle, heq⟩
    rcases Nat.lt_or_ge n ((2 * i + 2) * 2 ^ k) with h | h
    · exact .inr ⟨k, i, Nat.zero_le k, by omega, heq⟩
    · exact .inl ⟨k, i, h, heq⟩
  · rintro (⟨k, i, hle, heq⟩ | ⟨k, i, -, heq', heq⟩)
    · exact ⟨k, i, by omega, heq⟩
    · exact ⟨k, i, heq'.le, heq⟩

theorem duplicatedAt_even {level t : ℕ} :
    DuplicatedAt hash leaf (2 ^ level * (2 * t + 2)) level ↔
      perfect hash leaf level (2 * t) = perfect hash leaf level (2 * t + 1) ∨
        DuplicatedAt hash leaf (2 ^ level * (2 * t + 2)) (level + 1) := by
  constructor
  · rintro ⟨k, i, hk, hm, heq⟩
    rcases Nat.eq_or_lt_of_le hk with rfl | hlt
    · rw [mul_comm] at hm
      obtain rfl : i = t := by
        have := Nat.eq_of_mul_eq_mul_left (Nat.two_pow_pos level) hm
        omega
      exact .inl heq
    · exact .inr ⟨k, i, hlt, hm, heq⟩
  · rintro (heq | ⟨k, i, hk, hm, heq⟩)
    · exact ⟨level, t, le_rfl, mul_comm _ _, heq⟩
    · exact ⟨k, i, by omega, hm, heq⟩

theorem not_duplicatedAt_odd {level p : ℕ} :
    ¬ DuplicatedAt hash leaf (2 ^ level * (2 * p + 1)) level := by
  rintro ⟨k, i, hk, hm, -⟩
  obtain ⟨d, rfl⟩ : ∃ d, k = level + d := ⟨k - level, by omega⟩
  rw [show (2 * i + 2) * 2 ^ (level + d) = 2 ^ level * (2 * ((i + 1) * 2 ^ d)) by
    rw [pow_add]; ring] at hm
  have := Nat.eq_of_mul_eq_mul_left (Nat.two_pow_pos level) hm
  omega

theorem Leaves.nil (inner : ℕ → α) :
    Leaves hash leaf 0 { count := 0, inner := inner, mutated := false } where
  count := rfl
  inner j hj := by simp at hj
  mutated := by
    refine iff_of_false (by simp) ?_
    rintro ⟨k, i, hle, -⟩
    have : 0 < (2 * i + 2) * 2 ^ k := Nat.mul_pos (by omega) (Nat.two_pow_pos k)
    omega

theorem inner_of_carry {inner : ℕ → α} {level t : ℕ}
    (hinner : ∀ j, n.testBit j = true → inner j = perfect hash leaf j (n / 2 ^ j - 1))
    (hm : 2 ^ level * (2 * (t + 1)) = n + 1) :
    n / 2 ^ level = 2 * t + 1 ∧ inner level = perfect hash leaf level (2 * t) := by
  have hdiv : n / 2 ^ level = 2 * t + 1 := by
    rw [pred_div hm]
    omega
  have hset : n.testBit level = true := by
    rw [testBit_eq_div, hdiv]
    simp
  refine ⟨hdiv, ?_⟩
  rw [hinner level hset, hdiv]
  rfl

section FirstLoop

variable [DecidableEq α]

theorem combineLoop_spec {inner : ℕ → α}
    (hinner : ∀ j, n.testBit j = true → inner j = perfect hash leaf j (n / 2 ^ j - 1)) :
    ∀ {fuel level q : ℕ} (mutated : Bool), 0 < q → 2 ^ level * q = n + 1 →
      n + 1 < 2 ^ (level + fuel) →
      ∃ top p flag, combineLoop hash inner (n + 1) fuel level (perfect hash leaf level (q - 1))
          mutated = (top, perfect hash leaf top (2 * p), flag) ∧
        2 ^ top * (2 * p + 1) = n + 1 ∧
        (flag = true ↔ mutated = true ∨ DuplicatedAt hash leaf (n + 1) level)
  | 0, level, q, mutated, hq, hm, hfuel => by
    rw [← hm] at hfuel
    exact absurd rfl (fuel_pos hq hfuel)
  | fuel + 1, level, q, mutated, hq, hm, hfuel => by
    have hbit : (n + 1).testBit level = decide (q % 2 = 1) := by rw [← hm, testBit_mul]
    rw [combineLoop, hbit]
    rcases Nat.even_or_odd' q with ⟨t, rfl | rfl⟩
    · -- the bit is 0: the subtree of this level ended one leaf earlier
      obtain ⟨t, rfl⟩ : ∃ u, t = u + 1 := ⟨t - 1, by omega⟩
      obtain ⟨-, hleft⟩ := inner_of_carry hinner hm
      have hright : 2 * (t + 1) - 1 = 2 * t + 1 := rfl
      have hup : 2 ^ (level + 1) * (t + 1) = n + 1 := by
        rw [← hm, pow_succ]
        ring
      obtain ⟨top, p, flag, hloop, htop, hflag⟩ := combineLoop_spec hinner
        (mutated || decide (inner level = perfect hash leaf level (2 * t + 1)))
        (Nat.succ_pos t) hup (by rwa [Nat.add_right_comm, Nat.add_assoc])
      refine ⟨top, p, flag, ?_, htop, ?_⟩
      · rw [if_neg (by simp), hright, ← hloop, hleft]
        rfl
      · rw [hflag, hleft, Bool.or_eq_true, decide_eq_true_iff, or_assoc, ← hm,
          show 2 * (t + 1) = 2 * t + 2 by ring, ← duplicatedAt_even]
    · refine ⟨level, t, mutated, ?_, hm, ?_⟩
      · rw [if_pos (by simp)]
        rfl
      · rw [← hm]
        simp [not_duplicatedAt_odd]

theorem Leaves.addLeaf {s : MerkleState α} (h : Leaves hash leaf n s)
    (hn : n + 1 < 2 ^ MERKLE_LEVELS) : Leaves hash leaf (n + 1) (s.addLeaf hash (leaf n)) := by
  have hfuel : n + 1 < 2 ^ (0 + MERKLE_LEVELS) := by simpa using hn
  have hwhole : 2 ^ 0 * (n + 1) = n + 1 := by simp
  obtain ⟨top, p, flag, hloop, htop, hflag⟩ :=
    combineLoop_spec h.inner s.mutated (Nat.succ_pos n) hwhole hfuel
  have hadd : s.addLeaf hash (leaf n) =
      { count := n + 1, inner := Function.update s.inner top (perfect hash leaf top (2 * p)),
        mutated := flag } := by
    simp only [MerkleState.addLeaf, h.count, Nat.mod_eq_of_lt hn]
    rw [show leaf n = perfect hash leaf 0 (n + 1 - 1) from rfl, hloop]
  rw [hadd]
  refine ⟨rfl, fun j hj => ?_, ?_⟩
  · rcases lt_trichotomy j top with hlt | rfl | hgt
    · rw [← htop, testBit_below hlt] at hj
      simp at hj
    · rw [← htop, Nat.mul_div_cancel_left _ (Nat.two_pow_pos j)]
      simp
    · have hdiv := pred_div_above htop hgt
      show Function.update s.inner top _ j = _
      rw [Function.update_of_ne hgt.ne', ← hdiv]
      refine h.inner j ?_
      rwa [testBit_eq_div, hdiv, ← testBit_eq_div]
  · rw [hflag, h.mutated, duplicated_succ]

theorem Leaves.foldl : ∀ {l : List α} {n : ℕ} {s : MerkleState α}, Leaves hash leaf n s →
    (∀ i, (h : i < l.length) → l[i] = leaf (n + i)) → n + l.length < 2 ^ MERKLE_LEVELS →
    Leaves hash leaf (n + l.length) (l.foldl (fun s leaf => s.addLeaf hash leaf) s)
  | [], n, s, h, _, _ => h
  | a :: l, n, s, h, hleaf, hlen => by
    rw [List.length_cons] at hlen ⊢
    obtain rfl : a = leaf n := hleaf 0 (by simp)
    rw [List.foldl_cons, show n + (l.length + 1) = n + 1 + l.length by omega]
    refine Leaves.foldl (h.addLeaf (by omega)) (fun i hi => ?_) (by omega)
    have := hleaf (i + 1) (by simpa using hi)
    rwa [List.getElem_cons_succ, show n + (i + 1) = n + 1 + i by omega] at this

end FirstLoop

/-! ### The sweep -/

/-- The sweep has reached a level: `count` is the number of leaves rounded up to `q` nodes of
it. -/
structure Swept (n count level q : ℕ) : Prop where
  count_eq : count = 2 ^ level * q
  pos : 0 < q
  lower : 2 ^ level * (q - 1) < n
  upper : n ≤ count
  height : level ≤ Nat.clog 2 n

namespace Swept

variable {count level q : ℕ}

theorem count_le (h : Swept n count level q) : count ≤ 2 ^ Nat.clog 2 n := by
  obtain ⟨d, hd⟩ := Nat.exists_eq_add_of_le h.height
  have hcover : n ≤ 2 ^ Nat.clog 2 n := Nat.le_pow_clog one_lt_two n
  have hlower := h.lower.trans_le hcover
  rw [hd, pow_add] at hlower ⊢
  have hq : q - 1 < 2 ^ d := Nat.lt_of_mul_lt_mul_left hlower
  rw [h.count_eq]
  exact Nat.mul_le_mul_left _ (by omega)

theorem lt_clog (h : Swept n count level q) (hq : 1 < q) : level < Nat.clog 2 n := by
  refine (Nat.lt_clog_iff_pow_lt one_lt_two).mpr (lt_of_le_of_lt ?_ h.lower)
  exact Nat.le_mul_of_pos_right _ (by omega)

theorem eq_clog (h : Swept n (2 ^ level) level q) : level = Nat.clog 2 n :=
  le_antisymm h.height (Nat.clog_le_of_le_pow h.upper)

theorem eq_pow_iff (h : Swept n count level q) : count = 2 ^ level ↔ q = 1 := by
  rw [h.count_eq]
  constructor
  · intro hq
    exact Nat.eq_of_mul_eq_mul_left (Nat.two_pow_pos level) (by simpa using hq)
  · rintro rfl
    simp

end Swept

theorem Swept.div_eq {count level q : ℕ} (h : Swept n count level q) (hstrict : n < count) :
    n / 2 ^ level = q - 1 := by
  have hlower := h.lower
  have hpos := h.pos
  rw [h.count_eq] at hstrict
  obtain ⟨t, rfl⟩ : ∃ t, q = t + 1 := ⟨q - 1, by omega⟩
  rw [Nat.div_eq_iff (Nat.two_pow_pos level)]
  rw [Nat.mul_succ] at hstrict
  rw [mul_comm]
  show 2 ^ level * t ≤ n ∧ n ≤ 2 ^ level * t + 2 ^ level - 1
  have hlower' : 2 ^ level * t < n := hlower
  omega

theorem inner_of_swept {inner : ℕ → α} {count level t : ℕ}
    (hinner : ∀ j, n.testBit j = true → inner j = perfect hash leaf j (n / 2 ^ j - 1))
    (hstrict : n < count) (h : Swept n count level (2 * (t + 1))) :
    n / 2 ^ level = 2 * t + 1 ∧ (2 * t + 1) * 2 ^ level < n ∧
      inner level = node hash leaf n level (2 * t) := by
  have hlower : 2 ^ level * (2 * t + 1) < n := h.lower
  have hdiv : n / 2 ^ level = 2 * t + 1 := h.div_eq hstrict
  have hset : n.testBit level = true := by
    rw [testBit_eq_div, hdiv]
    simp
  have hplace : (2 * t + 1) * 2 ^ level < n := by rwa [mul_comm]
  refine ⟨hdiv, hplace, ?_⟩
  rw [hinner level hset, hdiv, node_eq_perfect hplace.le]
  rfl

theorem Swept.up {count level t : ℕ} (h : Swept n count level (2 * (t + 1))) :
    Swept n count (level + 1) (t + 1) := by
  refine ⟨?_, Nat.succ_pos t, ?_, h.upper, h.lt_clog (by omega)⟩
  · rw [h.count_eq, pow_succ]
    ring
  · refine lt_of_le_of_lt ?_ h.lower
    rw [pow_succ, mul_assoc]
    exact Nat.mul_le_mul_left _ (by omega)

theorem Swept.round {count level p : ℕ} (h : Swept n count level (2 * p + 1)) (hp : p ≠ 0) :
    Swept n (count + 2 ^ level) (level + 1) (p + 1) := by
  refine ⟨?_, Nat.succ_pos p, ?_, h.upper.trans (Nat.le_add_right _ _), h.lt_clog (by omega)⟩
  · rw [h.count_eq, pow_succ]
    ring
  · rw [show p + 1 - 1 = p from rfl, pow_succ, mul_assoc]
    exact h.lower

theorem Swept.alone {count level p : ℕ} (h : Swept n count level (2 * p + 1)) :
    n ≤ (2 * p + 1) * 2 ^ level := by
  rw [mul_comm, ← h.count_eq]
  exact h.upper

theorem Swept.carry {count level p : ℕ} (h : Swept n count level (2 * p + 1)) (hp : p ≠ 0)
    (hclog : Nat.clog 2 n < MERKLE_LEVELS) :
    n < count + 2 ^ level ∧ count + 2 ^ level < 2 ^ MERKLE_LEVELS ∧
      count + 2 ^ level < 2 ^ (level + 1 + MERKLE_LEVELS) := by
  have hcap : count + 2 ^ level < 2 ^ MERKLE_LEVELS :=
    lt_of_le_of_lt (h.round hp).count_le (Nat.pow_lt_pow_right one_lt_two hclog)
  refine ⟨?_, hcap, hcap.trans_le (Nat.pow_le_pow_right two_pos (by omega))⟩
  have := h.upper
  have := Nat.two_pow_pos level
  omega

theorem Swept.more {count level p : ℕ} (h : Swept n count level (2 * p + 1)) (hp : p ≠ 0) :
    count ≠ 2 ^ level := by
  intro hone
  have := h.eq_pow_iff.mp hone
  omega

theorem propagateLoop_spec {inner : ℕ → α} {count : ℕ}
    (hinner : ∀ j, n.testBit j = true → inner j = perfect hash leaf j (n / 2 ^ j - 1))
    (hstrict : n < count) : ∀ {fuel level q : ℕ}, Swept n count level q →
      count < 2 ^ (level + fuel) →
      ∃ top p, propagateLoop hash inner count fuel level (node hash leaf n level (q - 1)) =
          (top, node hash leaf n top (2 * p)) ∧ level ≤ top ∧ Swept n count top (2 * p + 1)
  | 0, level, q, h, hfuel => by
    rw [h.count_eq] at hfuel
    exact absurd rfl (fuel_pos h.pos hfuel)
  | fuel + 1, level, q, h, hfuel => by
    have hbit : count.testBit level = decide (q % 2 = 1) := by rw [h.count_eq, testBit_mul]
    rw [propagateLoop, hbit]
    rcases Nat.even_or_odd' q with ⟨t, rfl | rfl⟩
    · obtain ⟨t, rfl⟩ : ∃ u, t = u + 1 := ⟨t - 1, by have := h.pos; omega⟩
      obtain ⟨-, hplace, hleft⟩ := inner_of_swept hinner hstrict h
      have hup := h.up
      have hfuel' : count < 2 ^ (level + 1 + fuel) := by rwa [Nat.add_right_comm, Nat.add_assoc]
      obtain ⟨top, p, hloop, htop, hswept⟩ := propagateLoop_spec hinner hstrict hup hfuel'
      refine ⟨top, p, ?_, by omega, hswept⟩
      rw [if_neg (by simp), ← hloop, hleft]
      have hnode : node hash leaf n (level + 1) t =
          hash (node hash leaf n level (2 * t)) (node hash leaf n level (2 * t + 1)) := by
        rw [node_succ, right_of_lt hplace]
      rw [show t + 1 - 1 = t from rfl, hnode]
      rfl
    · refine ⟨level, t, ?_, le_rfl, h⟩
      rw [if_pos (by simp)]
      rfl

theorem sweepLoop_spec {inner : ℕ → α}
    (hinner : ∀ j, n.testBit j = true → inner j = perfect hash leaf j (n / 2 ^ j - 1))
    (hclog : Nat.clog 2 n < MERKLE_LEVELS) : ∀ {fuel count level p : ℕ},
      Swept n count level (2 * p + 1) → MERKLE_LEVELS ≤ level + fuel →
      sweepLoop hash inner fuel count level (node hash leaf n level (2 * p)) = root hash leaf n
  | 0, count, level, p, h, hfuel => by
    have := h.height
    omega
  | fuel + 1, count, level, p, h, hfuel => by
    rw [sweepLoop]
    by_cases hp : p = 0
    · subst hp
      have hone := h.eq_pow_iff.mpr rfl
      rw [hone] at h
      rw [if_pos hone, root, ← h.eq_clog]
    · rw [if_neg (h.more hp)]
      -- the value that is combined with itself is the left child of the next level
      have hself : hash (node hash leaf n level (2 * p)) (node hash leaf n level (2 * p)) =
          node hash leaf n (level + 1) p := by
        rw [node_succ, right_of_le h.alone]
      have hup := h.round hp
      obtain ⟨hstrict, hcap, hfuel'⟩ := h.carry hp hclog
      obtain ⟨top, q, hloop, htop, hswept⟩ := propagateLoop_spec hinner hstrict hup hfuel'
      simp only [Nat.mod_eq_of_lt hcap, hself]
      rw [show node hash leaf n (level + 1) p = node hash leaf n (level + 1) (p + 1 - 1) from rfl,
        hloop]
      exact sweepLoop_spec hinner hclog hswept (by omega)

theorem skipLoop_spec : ∀ {fuel level q : ℕ}, 0 < q → 2 ^ level * q = n →
    n < 2 ^ (level + fuel) → ∃ p, 2 ^ skipLoop n fuel level * (2 * p + 1) = n
  | 0, level, q, hq, hn, hfuel => by
    rw [← hn] at hfuel
    exact absurd rfl (fuel_pos hq hfuel)
  | fuel + 1, level, q, hq, hn, hfuel => by
    have hbit : n.testBit level = decide (q % 2 = 1) := by rw [← hn, testBit_mul]
    rw [skipLoop, hbit]
    rcases Nat.even_or_odd' q with ⟨t, rfl | rfl⟩
    · rw [if_neg (by simp)]
      refine skipLoop_spec (q := t) (by omega) ?_ (by rwa [Nat.add_right_comm, Nat.add_assoc])
      rw [← hn, pow_succ]
      ring
    · exact ⟨t, by rw [if_pos (by simp), hn]⟩

variable (hash leaf) in
theorem sweep_start (hpos : 0 < n) (hcap : n < 2 ^ MERKLE_LEVELS) : ∃ top p,
    skipLoop n MERKLE_LEVELS 0 = top ∧ n / 2 ^ top = 2 * p + 1 ∧ Swept n n top (2 * p + 1) ∧
      ∀ inner : ℕ → α,
        (∀ j, n.testBit j = true → inner j = perfect hash leaf j (n / 2 ^ j - 1)) →
        inner top = node hash leaf n top (2 * p) := by
  obtain ⟨p, hp⟩ := skipLoop_spec hpos (show 2 ^ 0 * n = n by simp)
    (show n < 2 ^ (0 + MERKLE_LEVELS) by simpa using hcap)
  generalize htop : skipLoop n MERKLE_LEVELS 0 = top at hp
  have hdiv : n / 2 ^ top = 2 * p + 1 := by
    rw [← hp, Nat.mul_div_cancel_left _ (Nat.two_pow_pos top)]
  have hset : n.testBit top = true := by
    rw [testBit_eq_div, hdiv]
    simp
  refine ⟨top, p, rfl, hdiv, ⟨hp.symm, Nat.succ_pos _, ?_, le_rfl, ?_⟩, fun inner hinner => ?_⟩
  · have hpow := Nat.two_pow_pos top
    rw [Nat.mul_succ] at hp
    rw [show 2 * p + 1 - 1 = 2 * p from rfl]
    omega
  · refine (Nat.pow_le_pow_iff_right one_lt_two).mp ?_
    refine le_trans ?_ (Nat.le_pow_clog one_lt_two n)
    rw [← hp]
    exact Nat.le_mul_of_pos_right _ (Nat.succ_pos _)
  · rw [hinner top hset, hdiv, node_eq_perfect]
    · rfl
    · rw [mul_comm, hp]

/-! ### The root and the flag -/

variable [Inhabited α]

def leafAt (leaves : List α) (i : ℕ) : α :=
  leaves.getD i default

theorem leafAt_of_lt {leaves : List α} {i : ℕ} (h : i < leaves.length) :
    leafAt leaves i = leaves[i] := by
  simp [leafAt, List.getD, h]

variable [DecidableEq α]

theorem readLeaves_leaves {leaves : List α} (hlen : leaves.length < 2 ^ MERKLE_LEVELS) :
    Leaves hash (leafAt leaves) leaves.length (readLeaves hash leaves) := by
  have h : Leaves hash (leafAt leaves) (0 + leaves.length) (readLeaves hash leaves) :=
    Leaves.foldl (.nil _) (fun i hi => by rw [Nat.zero_add, leafAt_of_lt hi]) (by omega)
  rwa [Nat.zero_add] at h

theorem computeMerkleRoot_eq (hash : α → α → α) {leaves : List α} (hne : leaves ≠ [])
    (hlen : leaves.length ≤ 2 ^ (MERKLE_LEVELS - 1)) :
    (computeMerkleRoot hash leaves).1 = root hash (leafAt leaves) leaves.length ∧
      ((computeMerkleRoot hash leaves).2 = true ↔
        Duplicated hash (leafAt leaves) leaves.length) := by
  have hpos : 0 < leaves.length := List.length_pos_iff.mpr hne
  have hcap : leaves.length < 2 ^ MERKLE_LEVELS :=
    lt_of_le_of_lt hlen (Nat.pow_lt_pow_right one_lt_two (by decide))
  have hread : Leaves hash (leafAt leaves) leaves.length (readLeaves hash leaves) :=
    readLeaves_leaves hcap
  have hclog : Nat.clog 2 leaves.length < MERKLE_LEVELS :=
    lt_of_le_of_lt (Nat.clog_le_of_le_pow hlen) (by decide)
  obtain ⟨top, p, htop, -, hstart, hfirst⟩ := sweep_start hash (leafAt leaves) hpos hcap
  rw [computeMerkleRoot, if_neg (by simpa using hne)]
  refine ⟨?_, hread.mutated⟩
  simp only [hread.count, htop]
  rw [hfirst _ hread.inner]
  exact sweepLoop_spec hread.inner hclog hstart (by omega)

end Stonecoin
