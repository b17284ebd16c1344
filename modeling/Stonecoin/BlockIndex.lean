/-
The block index and the active chain (`chain.h`, `chain.cpp`), and the order of
`CBlockIndexWorkComparator`.

The fields of `CBlockIndex` that `AddToBlockIndex` sets once for all (`pprev`, `pskip`,
`nHeight`, `nChainWork`) form the `BlockTree`, together with what they satisfy; the fields
that change later are `CBlockIndex` here.  Pointers are addresses, because the order looks
at them when everything else is equal.
-/
import Stonecoin.ParentTree
import Mathlib.Algebra.BigOperators.Group.List.Basic
import Mathlib.Algebra.Order.Ring.Nat
import Mathlib.Logic.Function.Basic

namespace Stonecoin

open ParentTree

/-! ### Entries -/

structure BlockPtr where
  addr : ℕ
deriving DecidableEq, Repr

/-- `nStatus`: the level in `BLOCK_VALID_MASK`, and the other bits. -/
structure BlockStatus where
  valid : ℕ
  haveData : Bool
  haveUndo : Bool
  failedValid : Bool
  failedChild : Bool
deriving DecidableEq, Repr

def BLOCK_VALID_TREE : ℕ := 2
def BLOCK_VALID_TRANSACTIONS : ℕ := 3
def BLOCK_VALID_SCRIPTS : ℕ := 5

def BlockStatus.failed (st : BlockStatus) : Bool := st.failedValid || st.failedChild

structure CBlockIndex where
  nTx : ℕ
  nChainTx : ℕ
  nStatus : BlockStatus
  nSequenceId : ℕ
deriving DecidableEq, Repr

def CBlockIndex.null : CBlockIndex := ⟨0, 0, ⟨0, false, false, false, false⟩, 0⟩

def CBlockIndex.isValid (b : CBlockIndex) (nUpTo : ℕ) : Bool :=
  if b.nStatus.failed then false else nUpTo ≤ b.nStatus.valid

def BlockStatus.raiseValidity (st : BlockStatus) (nUpTo : ℕ) : BlockStatus :=
  if st.failed then st else if st.valid < nUpTo then { st with valid := nUpTo } else st

/-! ### The tree -/

def invertLowestOne (n : ℕ) : ℕ := n &&& (n - 1)

def getSkipHeight (height : ℕ) : ℕ :=
  if height < 2 then 0
  else if height % 2 = 1 then invertLowestOne (invertLowestOne (height - 1)) + 1
  else invertLowestOne height

theorem invertLowestOne_lt {n : ℕ} (h : 0 < n) : invertLowestOne n < n := by
  have hle : n &&& (n - 1) ≤ n - 1 := Nat.and_le_right
  show n &&& (n - 1) < n
  omega

theorem invertLowestOne_le (n : ℕ) : invertLowestOne n ≤ n := Nat.and_le_left

theorem getSkipHeight_lt {h : ℕ} (h0 : 0 < h) : getSkipHeight h < h := by
  unfold getSkipHeight
  split
  · exact h0
  split
  · have h₁ := invertLowestOne_lt (n := h - 1) (by omega)
    have h₂ := invertLowestOne_le (invertLowestOne (h - 1))
    omega
  · exact invertLowestOne_lt h0

/-- The blocks that are indexed, and their fixed fields.  Entries that are not indexed have
no parent. -/
structure BlockTree where
  mapBlockIndex : List BlockPtr
  pprev : BlockPtr → Option BlockPtr
  pskip : BlockPtr → Option BlockPtr
  nHeight : BlockPtr → ℕ
  nChainWork : BlockPtr → ℕ
  graded : Graded pprev nHeight
  indexed : ∀ b p, pprev b = some p → b ∈ mapBlockIndex ∧ p ∈ mapBlockIndex
  skip : ∀ b p, pprev b = some p → ∃ a ∈ line pprev nHeight p,
    pskip b = some a ∧ nHeight a = getSkipHeight (nHeight b)

namespace BlockTree

variable (t : BlockTree)

abbrev line (b : BlockPtr) : List BlockPtr := ParentTree.line t.pprev t.nHeight b

theorem mem_line_self (b : BlockPtr) : b ∈ t.line b := ParentTree.mem_line_self t.graded b

variable {t}

theorem mem_line_trans {a b c : BlockPtr} (hab : a ∈ t.line b) (hbc : b ∈ t.line c) :
    a ∈ t.line c :=
  ParentTree.mem_line_trans t.graded hab hbc

theorem mem_of_mem_line {a b : BlockPtr} (hb : b ∈ t.mapBlockIndex) (h : a ∈ t.line b) :
    a ∈ t.mapBlockIndex := by
  revert hb h
  apply t.graded.upward (P := fun b => b ∈ t.mapBlockIndex → a ∈ t.line b →
    a ∈ t.mapBlockIndex) _ b
  intro b ih hb h
  rcases (mem_line_iff t.graded).mp h with rfl | ⟨p, hp, hap⟩
  · exact hb
  · exact ih p hp (t.indexed b p hp).2 hap

variable (t)

/-- The loop of `GetAncestor`, with the number of steps it may still take. -/
def getAncestorLoop (height : ℕ) : ℕ → BlockPtr → ℕ → Option BlockPtr
  | 0, _, _ => none
  | fuel + 1, pindexWalk, heightWalk =>
    if height < heightWalk then
      let heightSkip := getSkipHeight heightWalk
      let heightSkipPrev := getSkipHeight (heightWalk - 1)
      if (t.pskip pindexWalk).isSome ∧ (heightSkip = height ∨
          height < heightSkip ∧ ¬ (heightSkipPrev + 2 < heightSkip ∧ height ≤ heightSkipPrev)) then
        -- only follow `pskip` if `pprev->pskip` is not better
        match t.pskip pindexWalk with
        | none => none
        | some skip => getAncestorLoop height fuel skip heightSkip
      else
        match t.pprev pindexWalk with
        | none => none
        | some prev => getAncestorLoop height fuel prev (heightWalk - 1)
    else some pindexWalk

def getAncestor (b : BlockPtr) (height : ℕ) : Option BlockPtr :=
  if t.nHeight b < height then none
  else t.getAncestorLoop height (t.nHeight b + 1) b (t.nHeight b)

variable {t}

theorem getAncestorLoop_spec (t : BlockTree) (height : ℕ) : ∀ (fuel : ℕ) (w : BlockPtr),
    t.nHeight w < fuel → height ≤ t.nHeight w →
      ∃ a ∈ t.line w, t.nHeight a = height ∧
        t.getAncestorLoop height fuel w (t.nHeight w) = some a := by
  intro fuel
  induction fuel with
  | zero =>
    intro w hf
    omega
  | succ fuel ih =>
    intro w hf hle
    simp only [getAncestorLoop]
    by_cases hlt : height < t.nHeight w
    · rw [if_pos hlt]
      -- the block is not a root, so both pointers are there
      rcases hp : t.pprev w with - | p
      · rw [t.graded.root w hp] at hlt
        omega
      obtain ⟨s, hs, hskip, hsh⟩ := t.skip w p hp
      have hc := t.graded.child w p hp
      have hsw : s ∈ t.line w := mem_line_parent t.graded hp hs
      have hsl := getSkipHeight_lt (h := t.nHeight w) (by omega)
      split
      next hcond =>
        rw [hskip]
        dsimp only
        rw [← hsh]
        obtain ⟨a, ha, hah, hr⟩ := ih s (by omega) (by omega)
        exact ⟨a, mem_line_trans ha hsw, hah, hr⟩
      next hcond =>
        dsimp only
        rw [show t.nHeight w - 1 = t.nHeight p by omega]
        obtain ⟨a, ha, hah, hr⟩ := ih p (by omega) (by omega)
        exact ⟨a, mem_line_trans ha (parent_mem_line t.graded hp), hah, hr⟩
    · rw [if_neg hlt]
      exact ⟨w, t.mem_line_self w, by omega, rfl⟩

theorem getAncestor_eq_some {a b : BlockPtr} {height : ℕ} :
    t.getAncestor b height = some a ↔ a ∈ t.line b ∧ t.nHeight a = height := by
  unfold getAncestor
  by_cases h : t.nHeight b < height
  · rw [if_pos h]
    constructor
    · intro he
      cases he
    · rintro ⟨ha, rfl⟩
      have := height_le_of_mem t.graded ha
      omega
  · rw [if_neg h]
    obtain ⟨a', ha', hh', hr⟩ := getAncestorLoop_spec t height
      (t.nHeight b + 1) b (by omega) (by omega)
    rw [hr]
    constructor
    · intro he
      obtain rfl := Option.some.inj he
      exact ⟨ha', hh'⟩
    · rintro ⟨ha, hh⟩
      exact congrArg some (eq_of_mem_line t.graded ha' ha (hh'.trans hh.symm))

end BlockTree

/-! ### The state -/

/-- The variables of `main.cpp` around the block index. -/
structure ChainState where
  tree : BlockTree
  node : BlockPtr → CBlockIndex
  /-- `chainActive.vChain`. -/
  vChain : List (Option BlockPtr)
  setBlockIndexCandidates : List BlockPtr
  mapBlocksUnlinked : List (BlockPtr × BlockPtr)
  nBlockSequenceId : ℕ

namespace ChainState

variable (s : ChainState)

abbrev line (b : BlockPtr) : List BlockPtr := s.tree.line b

def failed (b : BlockPtr) : Bool := (s.node b).nStatus.failed

def modify (b : BlockPtr) (f : CBlockIndex → CBlockIndex) : ChainState :=
  { s with node := Function.update s.node b (f (s.node b)) }

def modifyStatus (b : BlockPtr) (f : BlockStatus → BlockStatus) : ChainState :=
  s.modify b fun e => { e with nStatus := f e.nStatus }

/-! #### The candidate set -/

/-- `CBlockIndexWorkComparator`. -/
def less (pa pb : BlockPtr) : Bool :=
  if s.tree.nChainWork pb < s.tree.nChainWork pa then false
  else if s.tree.nChainWork pa < s.tree.nChainWork pb then true
  else if (s.node pa).nSequenceId < (s.node pb).nSequenceId then false
  else if (s.node pb).nSequenceId < (s.node pa).nSequenceId then true
  else if pa.addr < pb.addr then false
  else if pb.addr < pa.addr then true
  else false

def insertCandidate (b : BlockPtr) : ChainState :=
  { s with setBlockIndexCandidates := s.setBlockIndexCandidates.insert b }

def eraseCandidate (b : BlockPtr) : ChainState :=
  { s with setBlockIndexCandidates := s.setBlockIndexCandidates.filter (· ≠ b) }

/-- The greatest element so far. -/
def better (best : Option BlockPtr) (b : BlockPtr) : Option BlockPtr :=
  match best with
  | none => some b
  | some m => if s.less m b then some b else some m

def bestCandidate : Option BlockPtr := s.setBlockIndexCandidates.foldl s.better none

/-! #### The active chain -/

def tip : Option BlockPtr := s.vChain.getLast?.join

def contains (b : BlockPtr) : Bool := s.vChain[s.tree.nHeight b]? = some (some b)

/-- The loop of `CChain::SetTip`, over the line of the new tip. -/
def setTipLoop (t : BlockTree) : List BlockPtr → List (Option BlockPtr) → List (Option BlockPtr)
  | [], v => v
  | b :: bs, v =>
    if v[t.nHeight b]? = some (some b) then v
    else setTipLoop t bs (v.set (t.nHeight b) (some b))

def setTip : Option BlockPtr → ChainState
  | none => { s with vChain := [] }
  | some b =>
    let n := s.tree.nHeight b + 1
    -- `vChain.resize(n)`
    let v := s.vChain.take n ++ List.replicate (n - s.vChain.length) none
    { s with vChain := setTipLoop s.tree (s.line b) v }

/-- `CChain::FindFork`; `Height()` of an empty chain is `-1`, and no block has that
height. -/
def findFork (b : BlockPtr) : Option BlockPtr :=
  let pindex :=
    if s.vChain.length ≤ s.tree.nHeight b then
      if s.vChain.isEmpty then none else s.tree.getAncestor b (s.vChain.length - 1)
    else some b
  match pindex with
  | none => none
  | some q => (s.line q).find? s.contains

/-! ### The order of the candidates -/

variable {s}

theorem less_iff {a b : BlockPtr} : s.less a b = true ↔
    s.tree.nChainWork a < s.tree.nChainWork b ∨
      s.tree.nChainWork a = s.tree.nChainWork b ∧
        ((s.node b).nSequenceId < (s.node a).nSequenceId ∨
          (s.node a).nSequenceId = (s.node b).nSequenceId ∧ b.addr < a.addr) := by
  unfold less
  repeat' split
  all_goals simp only [Bool.false_eq_true, false_iff, true_iff]
  all_goals omega

theorem less_irrefl (a : BlockPtr) : ¬ s.less a a = true := by
  rw [less_iff]
  omega

theorem less_trans {a b c : BlockPtr} (hab : s.less a b = true) (hbc : s.less b c = true) :
    s.less a c = true := by
  rw [less_iff] at *
  omega

theorem not_less_trans {a b c : BlockPtr} (hab : ¬ s.less a b = true)
    (hbc : ¬ s.less b c = true) : ¬ s.less a c = true := by
  rw [less_iff] at *
  omega

theorem not_less_of_less {a b : BlockPtr} (h : s.less a b = true) : ¬ s.less b a = true := by
  rw [less_iff] at *
  omega

theorem less_of_not_less {a b : BlockPtr} (h : ¬ s.less a b = true) (hne : a ≠ b) :
    s.less b a = true := by
  have haddr : a.addr ≠ b.addr := by
    intro he
    apply hne
    cases a
    cases b
    exact congrArg BlockPtr.mk he
  rw [less_iff] at *
  omega

theorem foldl_better : ∀ (l : List BlockPtr) (m₀ : BlockPtr),
    ∃ m, l.foldl s.better (some m₀) = some m ∧ (m = m₀ ∨ m ∈ l) ∧ ¬ s.less m m₀ = true ∧
      ∀ c ∈ l, ¬ s.less m c = true := by
  intro l
  induction l with
  | nil => exact fun m₀ => ⟨m₀, rfl, .inl rfl, less_irrefl m₀, by simp⟩
  | cons c l ih =>
    intro m₀
    rcases hc : s.less m₀ c with - | -
    · obtain ⟨m, hm, hmem, h₀, hall⟩ := ih m₀
      refine ⟨m, ?_, hmem.imp_right (List.mem_cons_of_mem _), h₀, fun d hd => ?_⟩
      · rw [List.foldl_cons, better, hc]
        exact hm
      · rcases List.mem_cons.mp hd with rfl | hd'
        · exact not_less_trans h₀ (by rw [hc]; simp)
        · exact hall d hd'
    · obtain ⟨m, hm, hmem, h₀, hall⟩ := ih c
      refine ⟨m, ?_, .inr ?_, ?_, fun d hd => ?_⟩
      · rw [List.foldl_cons, better, hc]
        exact hm
      · rcases hmem with rfl | h
        · exact List.mem_cons_self
        · exact List.mem_cons_of_mem _ h
      · intro h
        exact h₀ (less_trans h hc)
      · rcases List.mem_cons.mp hd with rfl | hd'
        · exact h₀
        · exact hall d hd'

theorem bestCandidate_eq_some {m : BlockPtr} (h : s.bestCandidate = some m) :
    m ∈ s.setBlockIndexCandidates ∧ ∀ c ∈ s.setBlockIndexCandidates, ¬ s.less m c = true := by
  unfold bestCandidate at h
  rcases hl : s.setBlockIndexCandidates with - | ⟨c, l⟩
  · rw [hl] at h
    cases h
  · rw [hl] at h
    obtain ⟨m', hm', hmem, h₀, hall⟩ := foldl_better (s := s) l c
    obtain rfl : m' = m := by
      rw [List.foldl_cons] at h
      exact Option.some.inj (hm'.symm.trans h)
    refine ⟨?_, fun d hd => ?_⟩
    · rcases hmem with rfl | h'
      · exact List.mem_cons_self
      · exact List.mem_cons_of_mem _ h'
    · rcases List.mem_cons.mp hd with rfl | hd'
      · exact h₀
      · exact hall d hd'

theorem bestCandidate_eq_none (h : s.bestCandidate = none) : s.setBlockIndexCandidates = [] := by
  unfold bestCandidate at h
  rcases hl : s.setBlockIndexCandidates with - | ⟨c, l⟩
  · rfl
  · obtain ⟨m, hm, -⟩ := foldl_better (s := s) l c
    rw [hl, List.foldl_cons] at h
    cases hm.symm.trans h

/-! ### The active chain -/

def Active (s : ChainState) (b : BlockPtr) : Prop := s.vChain = (s.line b).reverse.map some

theorem Active.tip_eq {t : BlockPtr} (h : s.Active t) : s.tip = some t := by
  unfold tip
  rw [h]
  rw [List.getLast?_map, List.getLast?_reverse]
  show Option.join (((s.line t).head?).map some) = some t
  rw [show (s.line t).head? = some t from head?_line s.tree.graded t]
  rfl

theorem Active.length_eq {t : BlockPtr} (h : s.Active t) :
    s.vChain.length = s.tree.nHeight t + 1 := by
  rw [h, List.length_map, List.length_reverse]
  exact length_line s.tree.graded t

theorem Active.getElem?_eq {t b : BlockPtr} (h : s.Active t) {n : ℕ} :
    s.vChain[n]? = some (some b) ↔ b ∈ s.line t ∧ s.tree.nHeight b = n := by
  rw [h, List.getElem?_map, ← getElem?_reverse_line s.tree.graded]
  show ((s.line t).reverse[n]?).map some = some (some b) ↔ (s.line t).reverse[n]? = some b
  rcases (s.line t).reverse[n]? with - | c <;> simp

theorem Active.contains_iff {t b : BlockPtr} (h : s.Active t) :
    s.contains b = true ↔ b ∈ s.line t := by
  unfold contains
  rw [decide_eq_true_eq, h.getElem?_eq]
  exact and_iff_left rfl

theorem setTipLoop_spec {t : BlockTree} (b : BlockPtr) :
    ∀ v : List (Option BlockPtr), t.nHeight b < v.length →
      (∀ a, t.nHeight a ≤ t.nHeight b → v[t.nHeight a]? = some (some a) →
        ∀ c ∈ t.line a, v[t.nHeight c]? = some (some c)) →
      (setTipLoop t (t.line b) v).length = v.length ∧
        (∀ c ∈ t.line b, (setTipLoop t (t.line b) v)[t.nHeight c]? = some (some c)) ∧
        ∀ i, t.nHeight b < i → (setTipLoop t (t.line b) v)[i]? = v[i]? := by
  apply t.graded.upward (P := fun b => ∀ v : List (Option BlockPtr), t.nHeight b < v.length →
      (∀ a, t.nHeight a ≤ t.nHeight b → v[t.nHeight a]? = some (some a) →
        ∀ c ∈ t.line a, v[t.nHeight c]? = some (some c)) →
      (setTipLoop t (t.line b) v).length = v.length ∧
        (∀ c ∈ t.line b, (setTipLoop t (t.line b) v)[t.nHeight c]? = some (some c)) ∧
        ∀ i, t.nHeight b < i → (setTipLoop t (t.line b) v)[i]? = v[i]?) _ b
  intro b ih v hlen hbelow
  obtain ⟨bs, hbs⟩ : ∃ bs, t.line b = b :: bs := by
    show ∃ bs, ParentTree.line t.pprev t.nHeight b = b :: bs
    rcases hp : t.pprev b with - | p
    · exact ⟨[], line_root t.graded hp⟩
    · exact ⟨_, line_child t.graded hp⟩
  by_cases hv : v[t.nHeight b]? = some (some b)
  · -- the loop stops here
    have hstop : setTipLoop t (t.line b) v = v := by
      rw [hbs, setTipLoop, if_pos hv]
    rw [hstop]
    exact ⟨rfl, hbelow b (Nat.le_refl _) hv, fun i _ => rfl⟩
  · have hstep : setTipLoop t (t.line b) v = setTipLoop t bs (v.set (t.nHeight b) (some b)) := by
      rw [hbs, setTipLoop, if_neg hv]
    rw [hstep]
    rcases hp : t.pprev b with - | p
    · have hnil : bs = [] := by
        have h := line_root t.graded hp
        rw [show ParentTree.line t.pprev t.nHeight b = t.line b from rfl, hbs] at h
        exact (List.cons.inj h).2
      rw [hnil, setTipLoop]
      refine ⟨List.length_set, fun c hc => ?_, fun i hi => ?_⟩
      · rw [hbs, hnil] at hc
        obtain rfl := List.mem_singleton.mp hc
        rw [List.getElem?_set_self hlen]
      · rw [List.getElem?_set_ne (by omega)]
    · have hline : bs = t.line p := by
        have h := line_child t.graded hp
        rw [show ParentTree.line t.pprev t.nHeight b = t.line b from rfl, hbs] at h
        exact (List.cons.inj h).2
      have hc := t.graded.child b p hp
      rw [hline]
      obtain ⟨h₁, h₂, h₃⟩ := ih p hp (v.set (t.nHeight b) (some b))
        (by rw [List.length_set]; omega) (by
          intro a ha hva c hca
          have hle := height_le_of_mem t.graded hca
          rw [List.getElem?_set_ne (by omega)] at hva ⊢
          exact hbelow a (by omega) hva c hca)
      refine ⟨h₁.trans List.length_set, fun c hc' => ?_, fun i hi => ?_⟩
      · rcases (mem_line_iff t.graded).mp hc' with rfl | ⟨p', hp', hcp⟩
        · rw [h₃ _ (by omega), List.getElem?_set_self hlen]
        · rw [hp] at hp'
          obtain rfl := Option.some.inj hp'
          exact h₂ c hcp
      · rw [h₃ i (by omega), List.getElem?_set_ne (by omega)]

theorem setTip_active
    (hbelow : ∀ a, s.contains a = true → ∀ c ∈ s.line a, s.contains c = true) (b : BlockPtr) :
    (s.setTip (some b)).Active b := by
  let n := s.tree.nHeight b + 1
  let v := s.vChain.take n ++ List.replicate (n - s.vChain.length) none
  have hlen : v.length = n := by
    simp only [v, List.length_append, List.length_take, List.length_replicate]
    omega
  -- the entries of the resized vector are those of the old one
  have hold : ∀ i a, v[i]? = some (some a) ↔ i < n ∧ s.vChain[i]? = some (some a) := by
    intro i a
    by_cases hi : i < (s.vChain.take n).length
    · have hi' := hi
      rw [List.length_take] at hi'
      rw [List.getElem?_append_left hi, List.getElem?_take]
      simp [show i < n by omega]
    · have hi' := hi
      rw [List.length_take] at hi'
      rw [List.getElem?_append_right (by omega), List.getElem?_replicate]
      constructor
      · intro he
        split at he <;> cases he
      · rintro ⟨hin, he⟩
        rw [List.getElem?_eq_none (by omega)] at he
        cases he
  obtain ⟨h₁, h₂, -⟩ := setTipLoop_spec (t := s.tree) b v (by omega) (by
    intro a ha hva c hca
    have hle := height_le_of_mem s.tree.graded hca
    have hat : s.contains a = true := decide_eq_true ((hold _ a).mp hva).2
    exact (hold _ c).mpr ⟨by omega, of_decide_eq_true (hbelow a hat c hca)⟩)
  show setTipLoop s.tree (s.tree.line b) v = (s.tree.line b).reverse.map some
  apply List.ext_getElem?
  intro i
  rw [List.getElem?_map]
  by_cases hi : i < n
  · obtain ⟨c, hc, rfl⟩ := exists_mem_line s.tree.graded (b := b) (n := i) (by omega)
    rw [h₂ c hc, (getElem?_reverse_line s.tree.graded).mpr ⟨hc, rfl⟩]
    rfl
  · have hl : (s.tree.line b).reverse.length = n := by
      rw [List.length_reverse]
      exact length_line s.tree.graded b
    rw [List.getElem?_eq_none (by omega), List.getElem?_eq_none (by omega)]
    rfl

theorem Active.setTip {t : BlockPtr} (h : s.Active t) (b : BlockPtr) :
    (s.setTip (some b)).Active b := by
  apply setTip_active
  intro a ha c hca
  exact h.contains_iff.mpr (BlockTree.mem_line_trans hca (h.contains_iff.mp ha))

theorem Active.findFork {t b : BlockPtr} (h : s.Active t)
    (hcommon : ∃ a ∈ s.line b, a ∈ s.line t) :
    ∃ f ∈ s.line b, s.findFork b = some f ∧ f ∈ s.line t ∧
      ∀ a ∈ s.line b, a ∈ s.line t → a ∈ s.line f := by
  -- the search starts at a block whose line holds all common blocks
  have hstart : ∃ q ∈ s.line b, s.findFork b = (s.line q).find? s.contains ∧
      ∀ a ∈ s.line b, a ∈ s.line t → a ∈ s.line q := by
    unfold ChainState.findFork
    rw [h.length_eq]
    by_cases hh : s.tree.nHeight t + 1 ≤ s.tree.nHeight b
    · obtain ⟨q, hq, hqh⟩ := exists_mem_line s.tree.graded (b := b) (n := s.tree.nHeight t)
        (by omega)
      have hne : s.vChain.isEmpty = false := by
        rw [List.isEmpty_eq_false_iff, ← List.length_pos_iff, h.length_eq]
        omega
      refine ⟨q, hq, ?_, fun a ha hat => mem_line_of_le s.tree.graded ha hq ?_⟩
      · rw [if_pos hh, hne, Nat.add_sub_cancel,
          if_neg (by simp), BlockTree.getAncestor_eq_some.mpr ⟨hq, hqh⟩]
      · rw [hqh]
        exact height_le_of_mem s.tree.graded hat
    · refine ⟨b, s.tree.mem_line_self b, ?_, fun a ha _ => ha⟩
      rw [if_neg hh]
  obtain ⟨q, hq, heq, hall⟩ := hstart
  obtain ⟨a, ha, hat⟩ := hcommon
  obtain ⟨f, hf, hfind, hPf, hmax⟩ := find?_line s.tree.graded s.contains
    ⟨a, hall a ha hat, h.contains_iff.mpr hat⟩
  exact ⟨f, BlockTree.mem_line_trans hf hq, heq.trans hfind, h.contains_iff.mp hPf,
    fun c hc hct => hmax c (hall c hc hct) (h.contains_iff.mpr hct)⟩

end ChainState

/-! ### A linear chain -/

/-- Blocks `0` to `n`, each on top of the one before. -/
def linearPrev (n : ℕ) (b : BlockPtr) : Option BlockPtr :=
  if 0 < b.addr ∧ b.addr ≤ n then some ⟨b.addr - 1⟩ else none

def linearHeight (n : ℕ) (b : BlockPtr) : ℕ := if b.addr ≤ n then b.addr else 0

theorem linear_graded (n : ℕ) : Graded (linearPrev n) (linearHeight n) := by
  constructor
  · intro b hb
    unfold linearPrev at hb
    unfold linearHeight
    split at hb
    next => cases hb
    next => split <;> omega
  · intro b p hb
    unfold linearPrev at hb
    split at hb
    next h =>
      obtain rfl := Option.some.inj hb
      unfold linearHeight
      rw [if_pos h.2, if_pos (by simp only; omega)]
      simp only
      omega
    next => cases hb

theorem mem_linear_line {n : ℕ} : ∀ {m a : ℕ}, m ≤ n → a ≤ m →
    (⟨a⟩ : BlockPtr) ∈ line (linearPrev n) (linearHeight n) ⟨m⟩ := by
  intro m
  induction m with
  | zero =>
    intro a _ ha
    obtain rfl := Nat.le_zero.mp ha
    exact mem_line_self (linear_graded n) _
  | succ m ih =>
    intro a hm ha
    rcases Nat.of_le_succ ha with ha | rfl
    · have hp : linearPrev n ⟨m + 1⟩ = some ⟨m⟩ := if_pos ⟨Nat.succ_pos m, hm⟩
      exact mem_line_parent (linear_graded n) hp (ih (Nat.le_of_succ_le hm) ha)
    · exact mem_line_self (linear_graded n) _

def linearTree (n : ℕ) : BlockTree where
  mapBlockIndex := (List.range (n + 1)).map BlockPtr.mk
  pprev := linearPrev n
  pskip b := if 0 < b.addr ∧ b.addr ≤ n then some ⟨getSkipHeight b.addr⟩ else none
  nHeight := linearHeight n
  nChainWork b := b.addr + 1
  graded := linear_graded n
  indexed := by
    intro b p hb
    unfold linearPrev at hb
    split at hb
    next h =>
      obtain rfl := Option.some.inj hb
      exact ⟨List.mem_map.mpr ⟨b.addr, List.mem_range.mpr (by omega), rfl⟩,
        List.mem_map.mpr ⟨b.addr - 1, List.mem_range.mpr (by omega), rfl⟩⟩
    next => cases hb
  skip := by
    intro b p hb
    unfold linearPrev at hb
    split at hb
    next h =>
      obtain rfl := Option.some.inj hb
      have hskip := getSkipHeight_lt h.1
      have hheight : linearHeight n b = b.addr := if_pos h.2
      refine ⟨⟨getSkipHeight b.addr⟩, mem_linear_line (by omega) (by omega), if_pos h, ?_⟩
      rw [hheight]
      exact if_pos (by simp only; omega)
    next => cases hb

end Stonecoin
