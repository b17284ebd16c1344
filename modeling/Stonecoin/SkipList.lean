/-
The skip pointers of the block index (`GetAncestor` and `BuildSkip` in `chain.cpp`), over
pointers that may be null or lead nowhere.

`BlockTree` of `BlockIndex.lean` has the skip pointers right by assumption.  Here blocks are
added to an empty memory and their skip pointers are set by `BuildSkip`, on the way in
(`AddToBlockIndex`) or later (`LoadBlockIndexDB`).

  * `Built.getAncestor_back`: on every memory so built the walk is the walk over `pprev`.
-/
import Stonecoin.BlockIndex

namespace Stonecoin.SkipList

variable {α : Type*}

/-- The fields of a `CBlockIndex` that the walk reads, with pointers in `α`. -/
structure CBlockIndex (α : Type*) where
  pprev : Option α
  pskip : Option α
  nHeight : ℕ

abbrev Memory (α : Type*) := α → Option (CBlockIndex α)

inductive Fault where
  | nullPointer
  | assertion
  | unfinished
deriving DecidableEq, Repr

/-- `*pindex`. -/
def deref (m : Memory α) : Option α → Except Fault (CBlockIndex α)
  | none => .error .nullPointer
  | some p => (m p).elim (.error .nullPointer) .ok

/-- The loop of `GetAncestor`, with the number of steps it may still take. -/
def getAncestorLoop (m : Memory α) (height : ℤ) :
    ℕ → Option α → ℕ → Except Fault (Option α)
  | fuel, pindexWalk, heightWalk =>
    if height < heightWalk then
      match fuel with
      | 0 => .error .unfinished
      | fuel + 1 => do
        let heightSkip := getSkipHeight heightWalk
        let heightSkipPrev := getSkipHeight (heightWalk - 1)
        let block ← deref m pindexWalk
        if block.pskip ≠ none ∧ ((heightSkip : ℤ) = height ∨ height < heightSkip ∧
            ¬ ((heightSkipPrev : ℤ) < heightSkip - 2 ∧ height ≤ heightSkipPrev)) then
          -- only follow `pskip` if `pprev->pskip` is not better
          getAncestorLoop m height fuel block.pskip heightSkip
        else if block.pprev = none then .error .assertion
        else getAncestorLoop m height fuel block.pprev (heightWalk - 1)
    else .ok pindexWalk

/-- `GetAncestor`; `none` is the null pointer. -/
def getAncestor (m : Memory α) (pindex : Option α) (height : ℤ) : Except Fault (Option α) := do
  let block ← deref m pindex
  if (block.nHeight : ℤ) < height ∨ height < 0 then .ok none
  else getAncestorLoop m height block.nHeight pindex block.nHeight

variable [DecidableEq α]

def buildSkip (m : Memory α) (pindex : α) : Except Fault (Memory α) := do
  let block ← deref m (some pindex)
  if block.pprev = none then .ok m
  else
    let pskip ← getAncestor m block.pprev (getSkipHeight block.nHeight)
    .ok (Function.update m pindex (some { block with pskip }))

/-- The part of `AddToBlockIndex` that sets the links of a block that is not indexed yet;
`prev` is the block with the hash `hashPrevBlock`, if it is indexed. -/
def addToBlockIndex (m : Memory α) (pindexNew : α) (prev : Option α) :
    Except Fault (Memory α) := do
  if prev = none then .ok (Function.update m pindexNew (some ⟨none, none, 0⟩))
  else
    let parent ← deref m prev
    buildSkip (Function.update m pindexNew (some ⟨prev, none, parent.nHeight + 1⟩)) pindexNew

/-- The memories in which blocks are added after their parents, and skip pointers are set
by `BuildSkip`. -/
inductive Built : Memory α → Prop
  | empty : Built fun _ => none
  | root {m : Memory α} {p : α} : Built m → m p = none →
      Built (Function.update m p (some ⟨none, none, 0⟩))
  | child {m : Memory α} {p q : α} {parent : CBlockIndex α} : Built m → m p = none →
      m q = some parent → Built (Function.update m p (some ⟨some q, none, parent.nHeight + 1⟩))
  | build {m m' : Memory α} {p : α} : Built m → buildSkip m p = .ok m' → Built m'

/-! ### The walk over `pprev` -/

/-- The block some steps along `pprev`. -/
def back (m : Memory α) : ℕ → α → Option α
  | 0, p => some p
  | n + 1, p => (m p).bind fun block => block.pprev.bind (back m n)

omit [DecidableEq α] in
theorem back_add {m : Memory α} (n k : ℕ) :
    ∀ p, back m (n + k) p = (back m n p).bind (back m k) := by
  induction n with
  | zero => simp [back]
  | succ n ih =>
    intro p
    rw [Nat.succ_add]
    simp only [back, Option.bind_assoc, ih]

/-- Blocks stay, with their parents and heights. -/
def Extends (m m' : Memory α) : Prop :=
  ∀ p block, m p = some block →
    ∃ block', m' p = some block' ∧ block'.pprev = block.pprev ∧ block'.nHeight = block.nHeight

omit [DecidableEq α] in
theorem Extends.back {m m' : Memory α} (h : Extends m m') {a : α} :
    ∀ {n : ℕ} {p : α}, back m n p = some a → back m' n p = some a := by
  intro n
  induction n with
  | zero => exact fun hb => hb
  | succ n ih =>
    intro p hb
    simp only [SkipList.back, Option.bind_eq_some_iff] at hb ⊢
    obtain ⟨block, hp, q, hq, hb⟩ := hb
    obtain ⟨block', hp', hprev, -⟩ := h p block hp
    exact ⟨block', hp', q, hprev.trans hq, ih hb⟩

/-- Heights count the steps to a root, and skip pointers lead to the height they are
meant for, on the same branch. -/
structure Sound (m : Memory α) : Prop where
  root : ∀ p block, m p = some block → block.pprev = none → block.nHeight = 0
  child : ∀ p block q, m p = some block → block.pprev = some q →
    ∃ parent, m q = some parent ∧ block.nHeight = parent.nHeight + 1
  skip : ∀ p block s, m p = some block → block.pskip = some s →
    back m (block.nHeight - getSkipHeight block.nHeight) p = some s

omit [DecidableEq α] in
theorem Sound.back_eq_some {m : Memory α} (h : Sound m) :
    ∀ {n : ℕ} {p : α} {block : CBlockIndex α}, m p = some block → n ≤ block.nHeight →
      ∃ a ancestor, back m n p = some a ∧ m a = some ancestor ∧
        ancestor.nHeight = block.nHeight - n := by
  intro n
  induction n with
  | zero => exact fun hp _ => ⟨_, _, rfl, hp, rfl⟩
  | succ n ih =>
    intro p block hp hn
    rcases hprev : block.pprev with - | q
    · have hzero := h.root p block hp hprev
      omega
    · obtain ⟨parent, hq, hheight⟩ := h.child p block q hp hprev
      obtain ⟨a, ancestor, hback, ha, hlevel⟩ := ih hq (by omega)
      refine ⟨a, ancestor, ?_, ha, by omega⟩
      simp only [back, hp, hprev, Option.bind_some, hback]

omit [DecidableEq α] in
theorem Sound.loop {m : Memory α} (h : Sound m) (height : ℕ) :
    ∀ {fuel : ℕ} {p : α} {block : CBlockIndex α}, m p = some block → height ≤ block.nHeight →
      block.nHeight ≤ fuel → getAncestorLoop m height fuel (some p) block.nHeight =
        .ok (back m (block.nHeight - height) p) := by
  intro fuel
  induction fuel with
  | zero =>
    intro p block hp hle hfuel
    rw [getAncestorLoop, if_neg (by omega), show block.nHeight - height = 0 by omega]
    rfl
  | succ fuel ih =>
    intro p block hp hle hfuel
    rw [getAncestorLoop]
    split
    next hlt =>
      -- the block is not a root, so the walk can always go on to its parent
      rcases hprev : block.pprev with - | q
      · have hzero := h.root p block hp hprev
        omega
      have hderef : deref m (some p) = .ok block := by simp [deref, hp]
      rw [hderef]
      dsimp only [bind, Except.bind]
      split
      next hskip =>
        obtain ⟨s, hs⟩ := Option.ne_none_iff_exists'.mp hskip.1
        have hlower := getSkipHeight_lt (h := block.nHeight) (by omega)
        obtain ⟨a, target, hback, ha, hlevel⟩ :=
          h.back_eq_some (n := block.nHeight - getSkipHeight block.nHeight) hp (by omega)
        obtain rfl : a = s := Option.some.inj (hback.symm.trans (h.skip p block s hp hs))
        have hreach : target.nHeight = getSkipHeight block.nHeight := by omega
        -- the rest of the way is the walk from the block that was skipped to
        rw [hs, ← hreach, ih ha (by omega) (by omega),
          show block.nHeight - height = (block.nHeight - getSkipHeight block.nHeight) +
            (target.nHeight - height) by omega, back_add, hback]
        rfl
      next =>
        obtain ⟨parent, hq, hheight⟩ := h.child p block q hp hprev
        rw [hprev, if_neg (by simp), show block.nHeight - 1 = parent.nHeight by omega,
          ih hq (by omega) (by omega),
          show block.nHeight - height = (parent.nHeight - height) + 1 by omega]
        simp only [back, hp, hprev, Option.bind_some]
    next hge =>
      rw [show block.nHeight - height = 0 by omega]
      rfl

omit [DecidableEq α] in
theorem Sound.getAncestor_eq {m : Memory α} (h : Sound m) {p : α} {block : CBlockIndex α}
    (hp : m p = some block) (height : ℤ) :
    getAncestor m (some p) height =
      .ok (if (block.nHeight : ℤ) < height ∨ height < 0 then none
        else back m (block.nHeight - height.toNat) p) := by
  have hderef : deref m (some p) = .ok block := by simp [deref, hp]
  rw [getAncestor, hderef]
  dsimp only [bind, Except.bind]
  split
  next => rfl
  next hrange =>
    obtain ⟨n, rfl⟩ := Int.eq_ofNat_of_zero_le (show 0 ≤ height by omega)
    exact h.loop n hp (by omega) (Nat.le_refl _)

/-! ### Building -/

theorem extends_update {m : Memory α} {p : α} (hp : m p = none) (block : CBlockIndex α) :
    Extends m (Function.update m p (some block)) := by
  intro q block' hq
  have hne : q ≠ p := by
    rintro rfl
    rw [hp] at hq
    cases hq
  exact ⟨block', by rw [Function.update_of_ne hne, hq], rfl, rfl⟩

theorem extends_skip {m : Memory α} {p : α} {block : CBlockIndex α} (hp : m p = some block)
    (s : Option α) : Extends m (Function.update m p (some { block with pskip := s })) := by
  intro q block' hq
  by_cases hqp : q = p
  · subst hqp
    obtain rfl := Option.some.inj (hp.symm.trans hq)
    exact ⟨_, Function.update_self .., rfl, rfl⟩
  · exact ⟨block', by rw [Function.update_of_ne hqp, hq], rfl, rfl⟩

theorem Sound.update {m : Memory α} (h : Sound m) {p : α} {block : CBlockIndex α}
    (hext : Extends m (Function.update m p (some block)))
    (hroot : block.pprev = none → block.nHeight = 0)
    (hchild : ∀ q, block.pprev = some q →
      ∃ parent, m q = some parent ∧ block.nHeight = parent.nHeight + 1)
    (hskip : ∀ s, block.pskip = some s →
      back m (block.nHeight - getSkipHeight block.nHeight) p = some s) :
    Sound (Function.update m p (some block)) := by
  -- what is found in the new memory is the new block or an old one
  have hcases : ∀ q block', Function.update m p (some block) q = some block' →
      (q = p ∧ block' = block) ∨ m q = some block' := by
    intro q block' hq
    by_cases hqp : q = p
    · subst hqp
      rw [Function.update_self] at hq
      exact .inl ⟨rfl, (Option.some.inj hq).symm⟩
    · rw [Function.update_of_ne hqp] at hq
      exact .inr hq
  constructor
  · intro q block' hq hprev
    rcases hcases q block' hq with ⟨rfl, rfl⟩ | hold
    · exact hroot hprev
    · exact h.root q block' hold hprev
  · intro q block' r hq hprev
    obtain ⟨parent, hr, hheight⟩ : ∃ parent, m r = some parent ∧
        block'.nHeight = parent.nHeight + 1 := by
      rcases hcases q block' hq with ⟨rfl, rfl⟩ | hold
      · exact hchild r hprev
      · exact h.child q block' r hold hprev
    obtain ⟨parent', hr', -, hsame⟩ := hext r parent hr
    exact ⟨parent', hr', by omega⟩
  · intro q block' s hq hs
    apply hext.back
    rcases hcases q block' hq with ⟨rfl, rfl⟩ | hold
    · exact hskip s hs
    · exact h.skip q block' s hold hs

theorem Sound.build {m : Memory α} (h : Sound m) {p : α} {block : CBlockIndex α}
    (hp : m p = some block) : ∃ m', buildSkip m p = .ok m' ∧ Sound m' ∧ Extends m m' := by
  have hderef : deref m (some p) = .ok block := by simp [deref, hp]
  rw [buildSkip, hderef]
  dsimp only [bind, Except.bind]
  split
  next => exact ⟨m, rfl, h, fun q b hq => ⟨b, hq, rfl, rfl⟩⟩
  next hprev =>
    obtain ⟨q, hq⟩ := Option.ne_none_iff_exists'.mp hprev
    obtain ⟨parent, hparent, hheight⟩ := h.child p block q hp hq
    have hlower := getSkipHeight_lt (h := block.nHeight) (by omega)
    have hpskip : getAncestor m block.pprev (getSkipHeight block.nHeight) =
        .ok (back m (parent.nHeight - getSkipHeight block.nHeight) q) := by
      rw [hq, h.getAncestor_eq hparent, if_neg (by omega), Int.toNat_natCast]
    rw [hpskip]
    refine ⟨_, rfl, ?_, extends_skip hp _⟩
    apply h.update (extends_skip hp _)
    · exact fun hnone => absurd hnone hprev
    · exact fun r hr => h.child p block r hp hr
    · intro s hs
      -- the ancestor of the parent, one step further from the block
      show back m (block.nHeight - getSkipHeight block.nHeight) p = some s
      rw [show block.nHeight - getSkipHeight block.nHeight =
        (parent.nHeight - getSkipHeight block.nHeight) + 1 by omega]
      simp only [back, hp, hq, Option.bind_some]
      exact hs

theorem Built.sound {m : Memory α} (h : Built m) : Sound m := by
  induction h with
  | empty =>
    constructor <;> intros <;> contradiction
  | @root m p _ hp ih =>
    apply ih.update (extends_update hp _) (fun _ => rfl)
    · intro q hq
      cases hq
    · intro s hs
      cases hs
  | @child m p q parent _ hp hq ih =>
    apply ih.update (extends_update hp _)
    · intro hnone
      cases hnone
    · intro r hr
      obtain rfl := Option.some.inj hr
      exact ⟨parent, hq, rfl⟩
    · intro s hs
      cases hs
  | @build m m' p _ hbuild ih =>
    rcases hp : m p with - | block
    · simp [buildSkip, deref, hp, bind, Except.bind] at hbuild
    · obtain ⟨m₁, hm₁, hsound, -⟩ := ih.build hp
      obtain rfl := Except.ok.inj (hm₁.symm.trans hbuild)
      exact hsound

/-- **On every tree whose skip pointers were set by `BuildSkip`, the walk of `GetAncestor`
is the walk over `pprev`**, and `BuildSkip` succeeds. -/
theorem Built.getAncestor_back {m : Memory α} (h : Built m) {b : α} {block : CBlockIndex α}
    (hb : m b = some block) (height : ℤ) :
    (SkipList.getAncestor m (some b) height = .ok none ↔
        height < 0 ∨ (block.nHeight : ℤ) < height) ∧
      (∀ n ≤ block.nHeight, height = n → ∃ a ancestor,
        SkipList.getAncestor m (some b) height = .ok (some a) ∧
          back m (block.nHeight - n) b = some a ∧ m a = some ancestor ∧ ancestor.nHeight = n) ∧
      ∃ m', buildSkip m b = .ok m' := by
  have heq := h.sound.getAncestor_eq hb height
  -- within the heights of the branch there is an ancestor
  have hin : ∀ n ≤ block.nHeight, height = n → ∃ a ancestor,
      SkipList.getAncestor m (some b) height = .ok (some a) ∧
        back m (block.nHeight - n) b = some a ∧ m a = some ancestor ∧ ancestor.nHeight = n := by
    rintro n hn rfl
    obtain ⟨a, ancestor, hback, ha, hlevel⟩ :=
      h.sound.back_eq_some (n := block.nHeight - n) hb (by omega)
    refine ⟨a, ancestor, ?_, hback, ha, by omega⟩
    rw [heq, if_neg (by omega), Int.toNat_natCast, hback]
  refine ⟨⟨fun hnone => ?_, fun hout => ?_⟩, hin, ?_⟩
  · by_contra hrange
    obtain ⟨n, rfl⟩ := Int.eq_ofNat_of_zero_le (show 0 ≤ height by omega)
    obtain ⟨a, -, ha, -⟩ := hin n (by omega) rfl
    rw [ha] at hnone
    cases hnone
  · rw [heq, if_pos (by omega)]
  · obtain ⟨m', hm', -⟩ := h.sound.build hb
    exact ⟨m', hm'⟩

/-- Blocks `0` to `n`, each added on top of the one before. -/
def lineUp : ℕ → Except Fault (Memory ℕ)
  | 0 => addToBlockIndex (fun _ => none) 0 none
  | n + 1 => do addToBlockIndex (← lineUp n) (n + 1) (some n)

theorem getAncestor_lineUp : ∃ m, lineUp 2 = .ok m ∧
    ∃ a, SkipList.getAncestor m (some 2) 0 = .ok (some a) ∧ back m 2 2 = some a := by
  have h₁ := ((Built.empty.root (p := 0) rfl).child (p := 1) (q := 0) rfl rfl).build (p := 1) rfl
  have h₂ := (h₁.child (p := 2) (q := 1) rfl rfl).build (p := 2) rfl
  obtain ⟨a, -, ha, hback, -⟩ := (h₂.getAncestor_back (b := 2) rfl 0).2.1 0 (Nat.zero_le _) rfl
  exact ⟨_, rfl, a, ha, hback⟩

end Stonecoin.SkipList
