/-
Lock times of whole transactions (`main.cpp`, `chain.h`): `IsFinalTx`, the median time
past, and the relative locks of `CalculateSequenceLocks` and `EvaluateSequenceLocks`.

The result of `CalculateSequenceLocks` is the pair of the last height and the last median
time at which the transaction is still locked, `-1` when there is none.
-/
import Stonecoin.BlockIndex
import Stonecoin.Medians
import Stonecoin.UpdateCoins

namespace Stonecoin

open ParentTree Medians

/-! ### Constants -/

def SEQUENCE_FINAL : ℕ := 0xffffffff
def SEQUENCE_LOCKTIME_DISABLE_FLAG : ℕ := 0x80000000
def SEQUENCE_LOCKTIME_TYPE_FLAG : ℕ := 0x00400000
def SEQUENCE_LOCKTIME_MASK : ℕ := 0x0000ffff
def SEQUENCE_LOCKTIME_GRANULARITY : ℕ := 9

def LOCKTIME_VERIFY_SEQUENCE : ℕ := 1
def LOCKTIME_MEDIAN_TIME_PAST : ℕ := 2
def LOCKTIME_THRESHOLD : ℤ := 500000000

/-! ### Absolute lock times -/

def isFinalTx (tx : CTransaction) (nBlockHeight nBlockTime : ℤ) : Bool :=
  if tx.nLockTime = 0 then true
  else if (tx.nLockTime : ℤ) <
      (if (tx.nLockTime : ℤ) < LOCKTIME_THRESHOLD then nBlockHeight else nBlockTime) then true
  else tx.vin.all fun txin => txin.nSequence = SEQUENCE_FINAL

/-! ### Median time past -/

/-- The block index, with the time of every header and the transactions of every block. -/
structure BlockStore where
  tree : BlockTree
  nTime : BlockPtr → ℕ
  vtx : BlockPtr → List CTransaction

namespace BlockStore

variable (c : BlockStore)

def nMedianTimeSpan : ℕ := 11

def pmedian (b : BlockPtr) : List ℕ := ((c.tree.line b).take nMedianTimeSpan).map c.nTime

def getMedianTimePast (b : BlockPtr) : ℕ := median 0 (c.pmedian b)

/-- Every block is later than the median time past of its parent. -/
def TimesRise : Prop :=
  ∀ b p, c.tree.pprev b = some p → c.getMedianTimePast p < c.nTime b

variable {c}

theorem pmedian_ne_nil (b : BlockPtr) : c.pmedian b ≠ [] := by
  have hb := c.tree.mem_line_self b
  intro h
  have h := List.map_eq_nil_iff.mp h
  rw [List.take_eq_nil_iff] at h
  rcases h with h | h
  · cases h
  · rw [h] at hb
    cases hb

theorem pmedian_child {b p : BlockPtr} (hb : c.tree.pprev b = some p) :
    c.pmedian b = c.nTime b :: (c.pmedian p).take 10 := by
  show (List.take 11 (c.tree.line b)).map c.nTime = _ :: List.take 10 ((List.take 11 _).map c.nTime)
  have hl : c.tree.line b = b :: c.tree.line p := line_child c.tree.graded hb
  rw [hl, List.take_succ_cons, List.map_cons, ← List.map_take, List.take_take]
  rfl

theorem getMedianTimePast_child (ht : c.TimesRise) {b p : BlockPtr}
    (hb : c.tree.pprev b = some p) : c.getMedianTimePast p ≤ c.getMedianTimePast b := by
  have hlen : (c.pmedian p).length ≤ 2 * 5 + 1 := by
    show ((List.take 11 _).map c.nTime).length ≤ 11
    rw [List.length_map, List.length_take]
    exact Nat.min_le_left _ _
  have hslide := median_le_slide 0 (pmedian_ne_nil p) hlen (ht b p hb).le
  rw [getMedianTimePast, getMedianTimePast, pmedian_child hb]
  exact hslide

theorem getMedianTimePast_mono (ht : c.TimesRise) {a b : BlockPtr} (h : a ∈ c.tree.line b) :
    c.getMedianTimePast a ≤ c.getMedianTimePast b :=
  le_of_mem_line c.tree.graded (fun _ _ hp => getMedianTimePast_child ht hp) h

end BlockStore

def sixBlocks : BlockStore where
  tree := linearTree 5
  nTime b := b.addr
  vtx _ := []

theorem sixBlocks_rise : sixBlocks.TimesRise := by
  intro b p hp
  have hp : (if 0 < b.addr ∧ b.addr ≤ 5 then some ⟨b.addr - 1⟩ else none) = some p := hp
  split at hp
  next h =>
    obtain rfl := Option.some.inj hp
    obtain ⟨a⟩ := b
    have h : 0 < a ∧ a ≤ 5 := h
    have ha : a = 1 ∨ a = 2 ∨ a = 3 ∨ a = 4 ∨ a = 5 := by omega
    rcases ha with rfl | rfl | rfl | rfl | rfl <;> decide +kernel
  next => cases hp

/-! ### Relative locks -/

/-- The block that locks are evaluated in, as far as it is looked at: `pprev`, `nHeight`
and `GetAncestor`. -/
structure LockBlock where
  pprev : Option BlockPtr
  nHeight : ℕ
  getAncestor : ℤ → Option BlockPtr

def BlockTree.lockBlock (t : BlockTree) (b : BlockPtr) : LockBlock :=
  ⟨t.pprev b, t.nHeight b, fun height => if height < 0 then none else t.getAncestor b height.toNat⟩

/-- The `index` of `CheckSequenceLocks`, which is not in the block index: it has no `pskip`,
so that `GetAncestor` goes through the tip.  Its own height is never asked for. -/
def BlockTree.nextIndex (t : BlockTree) (tip : BlockPtr) : LockBlock :=
  ⟨some tip, t.nHeight tip + 1,
    fun height => if height < 0 then none else t.getAncestor tip height.toNat⟩

namespace BlockStore

variable (c : BlockStore)

/-- The input loop of `CalculateSequenceLocks`, with what is left in `prevHeights`; `none`
is a null pointer. -/
def sequenceLocksLoop (block : LockBlock) :
    List CTxIn → List ℤ → ℤ → ℤ → Option ((ℤ × ℤ) × List ℤ)
  | txin :: vin, nCoinHeight :: prevHeights, nMinHeight, nMinTime =>
    if txin.nSequence &&& SEQUENCE_LOCKTIME_DISABLE_FLAG ≠ 0 then
      -- the height of this input is not relevant for sequence locks
      (sequenceLocksLoop block vin prevHeights nMinHeight nMinTime).map
        fun r => (r.1, 0 :: r.2)
    else if txin.nSequence &&& SEQUENCE_LOCKTIME_TYPE_FLAG ≠ 0 then
      match block.getAncestor (max (nCoinHeight - 1) 0) with
      | none => none
      | some ancestor =>
        let nCoinTime : ℤ := c.getMedianTimePast ancestor
        let nMinTime := max nMinTime (nCoinTime
          + ((txin.nSequence &&& SEQUENCE_LOCKTIME_MASK) <<< SEQUENCE_LOCKTIME_GRANULARITY : ℕ) - 1)
        (sequenceLocksLoop block vin prevHeights nMinHeight nMinTime).map
          fun r => (r.1, nCoinHeight :: r.2)
    else
      let nMinHeight := max nMinHeight
        (nCoinHeight + (txin.nSequence &&& SEQUENCE_LOCKTIME_MASK : ℕ) - 1)
      (sequenceLocksLoop block vin prevHeights nMinHeight nMinTime).map
        fun r => (r.1, nCoinHeight :: r.2)
  | _, _, nMinHeight, nMinTime => some ((nMinHeight, nMinTime), [])

def enforceBIP68 (tx : CTransaction) (flags : ℕ) : Bool :=
  2 ≤ toUInt32 tx.nVersion && flags &&& LOCKTIME_VERIFY_SEQUENCE ≠ 0

/-- `CalculateSequenceLocks`; `none` is the failed assertion, or a null pointer. -/
def calculateSequenceLocks (tx : CTransaction) (flags : ℕ) (prevHeights : List ℤ)
    (block : LockBlock) : Option ((ℤ × ℤ) × List ℤ) :=
  if prevHeights.length ≠ tx.vin.length then none
  else if !enforceBIP68 tx flags then some ((-1, -1), prevHeights)
  else c.sequenceLocksLoop block tx.vin prevHeights (-1) (-1)

def evaluateSequenceLocks (block : LockBlock) (lockPair : ℤ × ℤ) : Option Bool :=
  match block.pprev with
  | none => none
  | some pprev =>
    let nBlockTime : ℤ := c.getMedianTimePast pprev
    if (block.nHeight : ℤ) ≤ lockPair.1 ∨ nBlockTime ≤ lockPair.2 then some false
    else some true

def sequenceLocks (tx : CTransaction) (flags : ℕ) (prevHeights : List ℤ) (block : LockBlock) :
    Option Bool :=
  match c.calculateSequenceLocks tx flags prevHeights block with
  | none => none
  | some (lockPair, _) => c.evaluateSequenceLocks block lockPair

/-! ### What the locks say -/

/-- The lock of one input, given with the height of its coin, at a height and at a median
time. -/
def InputUnlocked (block : LockBlock) (nHeight nTime : ℤ) (i : CTxIn × ℤ) : Prop :=
  i.1.nSequence &&& SEQUENCE_LOCKTIME_DISABLE_FLAG = 0 →
    if i.1.nSequence &&& SEQUENCE_LOCKTIME_TYPE_FLAG ≠ 0 then
      ∀ ancestor, block.getAncestor (max (i.2 - 1) 0) = some ancestor →
        (c.getMedianTimePast ancestor : ℤ)
          + ((i.1.nSequence &&& SEQUENCE_LOCKTIME_MASK) <<< SEQUENCE_LOCKTIME_GRANULARITY : ℕ)
          - 1 < nTime
    else i.2 + (i.1.nSequence &&& SEQUENCE_LOCKTIME_MASK : ℕ) - 1 < nHeight

def lockedHeight (i : CTxIn × ℤ) : ℤ :=
  if i.1.nSequence &&& SEQUENCE_LOCKTIME_DISABLE_FLAG ≠ 0 then 0 else i.2

def HasAncestors (block : LockBlock) (prevHeights : List ℤ) : Prop :=
  ∀ h ∈ prevHeights, ∃ ancestor, block.getAncestor (max (h - 1) 0) = some ancestor

variable {c}

theorem sequenceLocksLoop_spec {block : LockBlock} : ∀ {vin : List CTxIn} {prevHeights : List ℤ}
    {H T : ℤ}, prevHeights.length = vin.length → HasAncestors block prevHeights →
    ∃ H' T', c.sequenceLocksLoop block vin prevHeights H T =
        some ((H', T'), (vin.zip prevHeights).map lockedHeight) ∧
      ∀ x y, H' < x ∧ T' < y ↔
        (H < x ∧ T < y) ∧ ∀ i ∈ vin.zip prevHeights, c.InputUnlocked block x y i := by
  intro vin
  induction vin with
  | nil =>
    intro prevHeights H T _ _
    exact ⟨H, T, by simp [sequenceLocksLoop], by simp⟩
  | cons txin vin ih =>
    intro prevHeights H T hlen hanc
    rcases prevHeights with - | ⟨h, prevHeights⟩
    · cases hlen
    have hlen' : prevHeights.length = vin.length := Nat.succ.inj hlen
    have hanc' : HasAncestors block prevHeights := fun x hx => hanc x (List.mem_cons_of_mem _ hx)
    simp only [sequenceLocksLoop, List.zip_cons_cons, List.map_cons, List.forall_mem_cons]
    by_cases hdis : txin.nSequence &&& SEQUENCE_LOCKTIME_DISABLE_FLAG ≠ 0
    · obtain ⟨H', T', hr, hiff⟩ := ih (H := H) (T := T) hlen' hanc'
      refine ⟨H', T', ?_, fun x y => ?_⟩
      · rw [if_pos hdis, hr, lockedHeight, if_pos hdis]
        rfl
      · have hfree : c.InputUnlocked block x y (txin, h) := fun h0 => absurd h0 hdis
        rw [hiff]
        simp [hfree]
    have hzero : txin.nSequence &&& SEQUENCE_LOCKTIME_DISABLE_FLAG = 0 := not_not.mp hdis
    rw [if_neg hdis, lockedHeight, if_neg hdis]
    by_cases htype : txin.nSequence &&& SEQUENCE_LOCKTIME_TYPE_FLAG ≠ 0
    · obtain ⟨a, ha⟩ := hanc h List.mem_cons_self
      obtain ⟨H', T', hr, hiff⟩ := ih (H := H) (T := max T ((c.getMedianTimePast a : ℤ)
        + ((txin.nSequence &&& SEQUENCE_LOCKTIME_MASK) <<< SEQUENCE_LOCKTIME_GRANULARITY : ℕ) - 1))
        hlen' hanc'
      refine ⟨H', T', ?_, fun x y => ?_⟩
      · rw [if_pos htype, ha]
        show Option.map _ (sequenceLocksLoop _ _ _ _ _ _) = _
        rw [hr]
        rfl
      · have hlock : c.InputUnlocked block x y (txin, h) ↔ (c.getMedianTimePast a : ℤ)
            + ((txin.nSequence &&& SEQUENCE_LOCKTIME_MASK) <<< SEQUENCE_LOCKTIME_GRANULARITY : ℕ)
            - 1 < y := by
          show (_ → ite _ _ _) ↔ _
          rw [if_pos htype]
          constructor
          · exact fun hl => hl hzero a ha
          · intro hl _ a' ha'
            rw [ha] at ha'
            exact Option.some.inj ha' ▸ hl
        rw [hiff, max_lt_iff, hlock]
        tauto
    · obtain ⟨H', T', hr, hiff⟩ := ih (H := max H (h
        + (txin.nSequence &&& SEQUENCE_LOCKTIME_MASK : ℕ) - 1)) (T := T) hlen' hanc'
      refine ⟨H', T', ?_, fun x y => ?_⟩
      · rw [if_neg htype, hr]
        rfl
      · have hlock : c.InputUnlocked block x y (txin, h) ↔
            h + (txin.nSequence &&& SEQUENCE_LOCKTIME_MASK : ℕ) - 1 < x := by
          show (_ → ite _ _ _) ↔ _
          rw [if_neg htype]
          exact ⟨fun hl => hl hzero, fun hl _ => hl⟩
        rw [hiff, max_lt_iff, hlock]
        tauto

theorem calculateSequenceLocks_free {tx : CTransaction} {flags : ℕ} {prevHeights : List ℤ}
    (block : LockBlock) (hlen : prevHeights.length = tx.vin.length)
    (hfree : enforceBIP68 tx flags = false) :
    c.calculateSequenceLocks tx flags prevHeights block = some ((-1, -1), prevHeights) := by
  rw [calculateSequenceLocks, if_neg (not_not.mpr hlen), hfree]
  rfl

theorem calculateSequenceLocks_spec {tx : CTransaction} {flags : ℕ} {prevHeights : List ℤ}
    {block : LockBlock} (hlen : prevHeights.length = tx.vin.length)
    (hanc : HasAncestors block prevHeights) (henf : enforceBIP68 tx flags = true) :
    ∃ H T, c.calculateSequenceLocks tx flags prevHeights block =
        some ((H, T), (tx.vin.zip prevHeights).map lockedHeight) ∧
      ∀ x y : ℤ, -1 < x → -1 < y → (H < x ∧ T < y ↔
        ∀ i ∈ tx.vin.zip prevHeights, c.InputUnlocked block x y i) := by
  obtain ⟨H, T, hr, hiff⟩ := sequenceLocksLoop_spec (c := c) (H := -1) (T := -1) hlen hanc
  refine ⟨H, T, ?_, fun x y hx hy => ?_⟩
  · rw [calculateSequenceLocks, if_neg (not_not.mpr hlen), henf]
    exact hr
  · rw [hiff]
    exact ⟨And.right, fun h => ⟨⟨hx, hy⟩, h⟩⟩

theorem evaluateSequenceLocks_iff {block : LockBlock} {p : BlockPtr} (hp : block.pprev = some p)
    {H T : ℤ} : c.evaluateSequenceLocks block (H, T) = some true ↔
      H < block.nHeight ∧ T < c.getMedianTimePast p := by
  simp only [evaluateSequenceLocks, hp]
  split <;> simp <;> omega

theorem sequenceLocks_iff {tx : CTransaction} {flags : ℕ} {prevHeights : List ℤ}
    {block : LockBlock} {p : BlockPtr} (hp : block.pprev = some p)
    (hlen : prevHeights.length = tx.vin.length) (hanc : HasAncestors block prevHeights) :
    c.sequenceLocks tx flags prevHeights block = some true ↔
      (enforceBIP68 tx flags = true → ∀ i ∈ tx.vin.zip prevHeights,
        c.InputUnlocked block block.nHeight (c.getMedianTimePast p) i) := by
  rcases henf : enforceBIP68 tx flags with - | -
  · rw [sequenceLocks, calculateSequenceLocks_free block hlen henf]
    show c.evaluateSequenceLocks block (-1, -1) = some true ↔ _
    rw [evaluateSequenceLocks_iff hp]
    simp only [Bool.false_eq_true, false_imp_iff, iff_true]
    omega
  · obtain ⟨H, T, hr, hiff⟩ := calculateSequenceLocks_spec (c := c) hlen hanc henf
    rw [sequenceLocks, hr]
    show c.evaluateSequenceLocks block (H, T) = some true ↔ _
    rw [evaluateSequenceLocks_iff hp, hiff _ _ (by omega) (by omega)]
    simp

end BlockStore

theorem BlockTree.hasAncestors_nextIndex (t : BlockTree) {tip : BlockPtr} {prevHeights : List ℤ}
    (h : ∀ x ∈ prevHeights, x ≤ t.nHeight tip + 1) :
    BlockStore.HasAncestors (t.nextIndex tip) prevHeights := by
  intro x hx
  have hle := h x hx
  obtain ⟨a, ha, hh⟩ := exists_mem_line t.graded (b := tip)
    (n := (max (x - 1) 0).toNat) (by omega)
  refine ⟨a, ?_⟩
  show (if max (x - 1) 0 < 0 then none else t.getAncestor tip _) = some a
  rw [if_neg (by omega)]
  exact getAncestor_eq_some.mpr ⟨ha, hh⟩

theorem BlockTree.getAncestor_lockBlock (t : BlockTree) {b p : BlockPtr}
    (hb : t.pprev b = some p) {x : ℤ} (hx : x ≤ t.nHeight p) :
    (t.lockBlock b).getAncestor x = (t.nextIndex p).getAncestor x := by
  show (if x < 0 then none else t.getAncestor b _) = if x < 0 then none else t.getAncestor p _
  split
  · rfl
  next h0 =>
    obtain ⟨a, ha, hh⟩ := exists_mem_line t.graded (b := p) (n := x.toNat) (by omega)
    rw [getAncestor_eq_some.mpr ⟨ha, hh⟩,
      getAncestor_eq_some.mpr ⟨mem_line_parent t.graded hb ha, hh⟩]

end Stonecoin
