/-
The states of a deployment (`versionbits.cpp`): `GetStateFor` with its cache.

`periodState` is what the states are meant to be: a recursion over whole periods from the
genesis block on, along one chain.  The code walks backwards from the last block of a period,
to a cached one or to one before the start time, and then forwards again.  Every entry of the
cache is the state it should be (`Valid`), on whatever branch it was computed, because the
state of a period depends on the blocks up to its beginning only (`periodState_line`).

  * `getStateFor_independent`: any queries that share a cache.
-/
import Stonecoin.SequenceLocks

namespace Stonecoin

open ParentTree

inductive ThresholdState
  | THRESHOLD_DEFINED
  | THRESHOLD_STARTED
  | THRESHOLD_LOCKED_IN
  | THRESHOLD_ACTIVE
  | THRESHOLD_FAILED
deriving DecidableEq, Repr

open ThresholdState

structure ThresholdConditionChecker where
  condition : BlockPtr → Bool
  beginTime : ℤ
  endTime : ℤ
  period : ℕ
  threshold : ℤ

/-- `ThresholdConditionCache`; the null pointer is a key too. -/
abbrev ThresholdConditionCache := Option BlockPtr → Option ThresholdState

def BlockTree.ancestor (t : BlockTree) (b : BlockPtr) (height : ℤ) : Option BlockPtr :=
  if height < 0 then none else t.getAncestor b height.toNat

namespace BlockStore

variable (c : BlockStore) (d : ThresholdConditionChecker)

/-! ### `GetStateFor` -/

def periodStart (pindexPrev : Option BlockPtr) : Option BlockPtr :=
  match pindexPrev with
  | none => none
  | some b =>
    c.tree.ancestor b ((c.tree.nHeight b : ℤ) - ((c.tree.nHeight b + 1) % d.period : ℕ))

/-- The first loop: backwards to a block whose state is known.  `vToCompute` has the block
pushed last in front. -/
def walkBack : ℕ → ThresholdConditionCache → List BlockPtr → Option BlockPtr →
    Option (ThresholdConditionCache × List BlockPtr × Option BlockPtr)
  | 0, _, _, _ => none
  | fuel + 1, cache, vToCompute, pindexPrev =>
    if (cache pindexPrev).isSome then some (cache, vToCompute, pindexPrev)
    else
      match pindexPrev with
      | none => some (Function.update cache none (some THRESHOLD_DEFINED), vToCompute, none)
      | some b =>
        if (c.getMedianTimePast b : ℤ) < d.beginTime then
          -- every earlier block will be before the start time
          some (Function.update cache (some b) (some THRESHOLD_DEFINED), vToCompute, some b)
        else walkBack fuel cache (b :: vToCompute)
          (c.tree.ancestor b ((c.tree.nHeight b : ℤ) - d.period))

/-- The loop that counts; `none` is a null pointer. -/
def countLoop : ℕ → Option BlockPtr → ℕ → Option ℕ
  | 0, _, count => some count
  | _ + 1, none, _ => none
  | n + 1, some b, count =>
    countLoop n (c.tree.pprev b) (if d.condition b then count + 1 else count)

/-- The `switch`. -/
def stateNext (state : ThresholdState) (pindexPrev : BlockPtr) : Option ThresholdState :=
  match state with
  | THRESHOLD_DEFINED =>
    if d.endTime ≤ c.getMedianTimePast pindexPrev then some THRESHOLD_FAILED
    else if d.beginTime ≤ c.getMedianTimePast pindexPrev then some THRESHOLD_STARTED
    else some state
  | THRESHOLD_STARTED =>
    if d.endTime ≤ c.getMedianTimePast pindexPrev then some THRESHOLD_FAILED
    else
      match c.countLoop d d.period (some pindexPrev) 0 with
      | none => none
      | some count => if d.threshold ≤ count then some THRESHOLD_LOCKED_IN else some state
  | THRESHOLD_LOCKED_IN => some THRESHOLD_ACTIVE
  | THRESHOLD_FAILED => some state
  | THRESHOLD_ACTIVE => some state

/-- The second loop: forwards, filling the cache. -/
def walkForward : List BlockPtr → ThresholdState → ThresholdConditionCache →
    Option (ThresholdState × ThresholdConditionCache)
  | [], state, cache => some (state, cache)
  | pindexPrev :: vToCompute, state, cache =>
    match c.stateNext d state pindexPrev with
    | none => none
    | some state => walkForward vToCompute state (Function.update cache (some pindexPrev) (some state))

/-- The passes that the first loop may need. -/
def walkFuel (pindexPrev : Option BlockPtr) : ℕ :=
  match pindexPrev with
  | none => 1
  | some b => c.tree.nHeight b + 2

/-- `GetStateFor`, with the cache it leaves; `none` is a null pointer or a failed assertion. -/
def getStateFor (pindexPrev : Option BlockPtr) (cache : ThresholdConditionCache) :
    Option (ThresholdState × ThresholdConditionCache) :=
  let pindexPrev := c.periodStart d pindexPrev
  match c.walkBack d (c.walkFuel pindexPrev) cache [] pindexPrev with
  | none => none
  | some (cache, vToCompute, pindexPrev) =>
    match cache pindexPrev with
    | none => none
    | some state => c.walkForward d vToCompute state cache

/-- The answers to a sequence of queries with one cache. -/
def getStates : List (Option BlockPtr) → ThresholdConditionCache → Option (List ThresholdState)
  | [], _ => some []
  | pindexPrev :: queries, cache =>
    match c.getStateFor d pindexPrev cache with
    | none => none
    | some (state, cache) => (getStates queries cache).map (state :: ·)

/-! ### What the states are meant to be -/

/-- The blocks that signal among the last `period` ones up to a block. -/
def signalling (b : BlockPtr) : ℕ := ((c.tree.line b).take d.period).countP d.condition

/-- The state after a period that ends with `b`. -/
def nextState (state : ThresholdState) (b : BlockPtr) : ThresholdState :=
  match state with
  | THRESHOLD_DEFINED =>
    if d.endTime ≤ c.getMedianTimePast b then THRESHOLD_FAILED
    else if d.beginTime ≤ c.getMedianTimePast b then THRESHOLD_STARTED
    else THRESHOLD_DEFINED
  | THRESHOLD_STARTED =>
    if d.endTime ≤ c.getMedianTimePast b then THRESHOLD_FAILED
    else if d.threshold ≤ c.signalling d b then THRESHOLD_LOCKED_IN
    else THRESHOLD_STARTED
  | THRESHOLD_LOCKED_IN => THRESHOLD_ACTIVE
  | THRESHOLD_ACTIVE => THRESHOLD_ACTIVE
  | THRESHOLD_FAILED => THRESHOLD_FAILED

/-- The state in the period `k` of the chain of `b`, by recursion over the periods. -/
def periodState : ℕ → BlockPtr → ThresholdState
  | 0, _ => THRESHOLD_DEFINED
  | k + 1, b =>
    match c.tree.getAncestor b ((k + 1) * d.period - 1) with
    | none => THRESHOLD_DEFINED
    | some e => c.nextState d (periodState k b) e

def stateOf (pindexPrev : Option BlockPtr) : ThresholdState :=
  match pindexPrev with
  | none => THRESHOLD_DEFINED
  | some b => c.periodState d ((c.tree.nHeight b + 1) / d.period) b

end BlockStore

/-- One state may come after the other. -/
def ThresholdState.Forward (s s' : ThresholdState) : Prop :=
  s = s' ∨ s = THRESHOLD_DEFINED ∨ s = THRESHOLD_STARTED ∧ s' ≠ THRESHOLD_DEFINED ∨
    s = THRESHOLD_LOCKED_IN ∧ s' = THRESHOLD_ACTIVE

theorem ThresholdState.Forward.trans {s s' s'' : ThresholdState} (h : s.Forward s')
    (h' : s'.Forward s'') : s.Forward s'' := by
  unfold Forward at *
  cases s <;> cases s' <;> cases s'' <;> simp at h h' ⊢

namespace BlockStore

variable {c : BlockStore} {d : ThresholdConditionChecker}

/-! ### Ancestors -/

variable {a b : BlockPtr}

theorem ancestor_eq_some {t : BlockTree} {height : ℤ} :
    t.ancestor b height = some a ↔ a ∈ t.line b ∧ (t.nHeight a : ℤ) = height := by
  unfold BlockTree.ancestor
  split
  next h =>
    constructor
    · intro h'
      cases h'
    · rintro ⟨-, h'⟩
      omega
  next h =>
    rw [BlockTree.getAncestor_eq_some]
    constructor
    · rintro ⟨ha, hh⟩
      exact ⟨ha, by omega⟩
    · rintro ⟨ha, hh⟩
      exact ⟨ha, by omega⟩

theorem getAncestor_line {t : BlockTree} (h : a ∈ t.line b) {height : ℕ}
    (hle : height ≤ t.nHeight a) : t.getAncestor a height = t.getAncestor b height := by
  obtain ⟨e, he, hh⟩ := exists_mem_line t.graded (b := a) hle
  rw [BlockTree.getAncestor_eq_some.mpr ⟨he, hh⟩,
    BlockTree.getAncestor_eq_some.mpr ⟨BlockTree.mem_line_trans he h, hh⟩]

/-! ### The states of a chain -/

theorem periodState_line (h : a ∈ c.tree.line b) : ∀ {k : ℕ},
    k * d.period ≤ c.tree.nHeight a + 1 → c.periodState d k a = c.periodState d k b := by
  intro k
  induction k with
  | zero => exact fun _ => rfl
  | succ k ih =>
    intro hk
    have hk' : k * d.period ≤ c.tree.nHeight a + 1 :=
      (Nat.mul_le_mul_right _ (Nat.le_succ k)).trans hk
    rw [periodState, periodState, ih hk', getAncestor_line h (by omega)]

theorem nextState_forward (state : ThresholdState) (b : BlockPtr) :
    state.Forward (c.nextState d state b) := by
  unfold ThresholdState.Forward nextState
  cases state with
  | THRESHOLD_STARTED =>
    dsimp only
    split
    · simp
    · split <;> simp
  | _ => simp

theorem periodState_forward (b : BlockPtr) : ∀ {j k : ℕ}, j ≤ k →
    k * d.period ≤ c.tree.nHeight b + 1 →
    (c.periodState d j b).Forward (c.periodState d k b) := by
  intro j k hjk
  induction hjk with
  | refl => exact fun _ => Or.inl rfl
  | step hjk ih =>
    intro hk
    rename_i k
    have hk' : k * d.period ≤ c.tree.nHeight b + 1 :=
      (Nat.mul_le_mul_right _ (Nat.le_succ k)).trans hk
    apply (ih hk').trans
    obtain ⟨e, he, hh⟩ := exists_mem_line c.tree.graded (b := b)
      (n := (k + 1) * d.period - 1) (by rw [Nat.succ_eq_add_one] at hk; omega)
    rw [periodState, BlockTree.getAncestor_eq_some.mpr ⟨he, hh⟩]
    exact nextState_forward _ _

theorem stateOf_forward (h : a ∈ c.tree.line b) :
    (c.stateOf d (some a)).Forward (c.stateOf d (some b)) := by
  have hheight : c.tree.nHeight a ≤ c.tree.nHeight b := height_le_of_mem c.tree.graded h
  show (c.periodState d _ a).Forward (c.periodState d _ b)
  rw [periodState_line h (Nat.div_mul_le_self _ _)]
  exact periodState_forward b (Nat.div_le_div_right (by omega)) (Nat.div_mul_le_self _ _)

theorem stateOf_period (h : a ∈ c.tree.line b)
    (hk : (c.tree.nHeight a + 1) / d.period = (c.tree.nHeight b + 1) / d.period) :
    c.stateOf d (some a) = c.stateOf d (some b) := by
  show c.periodState d _ a = c.periodState d _ b
  rw [periodState_line h (Nat.div_mul_le_self _ _), hk]

/-! ### Whole periods -/

theorem countLoop_eq : ∀ {n : ℕ} {b : BlockPtr} {count : ℕ}, n ≤ c.tree.nHeight b + 1 →
    c.countLoop d n (some b) count = some (count + ((c.tree.line b).take n).countP d.condition) := by
  intro n
  induction n with
  | zero => exact fun _ => rfl
  | succ n ih =>
    intro b count hn
    rw [countLoop]
    rcases hb : c.tree.pprev b with - | p
    · have hl : c.tree.line b = [b] := line_root c.tree.graded hb
      have hh := c.tree.graded.root b hb
      obtain rfl : n = 0 := by omega
      rw [hl]
      cases hcond : d.condition b <;> simp [countLoop, hcond]
    · have hl : c.tree.line b = b :: c.tree.line p := line_child c.tree.graded hb
      have hh := c.tree.graded.child b p hb
      rw [ih (by omega), hl, List.take_succ_cons]
      cases hcond : d.condition b <;> simp [hcond]
      omega

theorem stateNext_eq {state : ThresholdState}
    (h : d.period ≤ c.tree.nHeight b + 1) :
    c.stateNext d state b = some (c.nextState d state b) := by
  cases state with
  | THRESHOLD_DEFINED => simp only [stateNext, nextState, apply_ite some]
  | THRESHOLD_STARTED =>
    have hcount : c.countLoop d d.period (some b) 0 = some (c.signalling d b) := by
      rw [countLoop_eq h, Nat.zero_add]
      rfl
    simp only [stateNext, nextState, hcount, apply_ite some]
  | _ => rfl

/-- The last block of a period, or none before the first. -/
def Boundary (c : BlockStore) (d : ThresholdConditionChecker) (pindexPrev : Option BlockPtr) : Prop :=
  ∀ b, pindexPrev = some b → d.period ∣ c.tree.nHeight b + 1

theorem period_le (h : c.Boundary d (some b)) :
    d.period ≤ c.tree.nHeight b + 1 :=
  Nat.le_of_dvd (Nat.succ_pos _) (h b rfl)

theorem previous_period (hP : 0 < d.period) (hb : c.Boundary d (some b)) :
    c.Boundary d (c.tree.ancestor b ((c.tree.nHeight b : ℤ) - d.period)) ∧
      c.stateOf d (some b) = c.nextState d
        (c.stateOf d (c.tree.ancestor b ((c.tree.nHeight b : ℤ) - d.period))) b := by
  obtain ⟨k, hk⟩ := hb b rfl
  rcases k with - | k
  · omega
  have hdiv : (c.tree.nHeight b + 1) / d.period = k + 1 := by
    rw [hk, Nat.mul_div_cancel_left _ hP]
  rw [Nat.mul_succ] at hk
  have hlast : c.tree.getAncestor b ((k + 1) * d.period - 1) = some b := by
    refine BlockTree.getAncestor_eq_some.mpr ⟨c.tree.mem_line_self b, ?_⟩
    rw [Nat.mul_comm, Nat.mul_succ]
    omega
  have hstate : c.stateOf d (some b) = c.nextState d (c.periodState d k b) b := by
    show c.periodState d _ b = _
    rw [hdiv, periodState, hlast]
  rw [hstate]
  rcases k with - | k
  · -- the first period: the ancestor would be before the genesis block
    have hnone : c.tree.ancestor b ((c.tree.nHeight b : ℤ) - d.period) = none := by
      apply if_pos
      omega
    rw [hnone]
    refine ⟨?_, rfl⟩
    intro _ h
    cases h
  · obtain ⟨a, ha, hha⟩ := exists_mem_line c.tree.graded (b := b)
      (n := c.tree.nHeight b - d.period) (Nat.sub_le _ _)
    have hpos : d.period ≤ d.period * (k + 1) := Nat.le_mul_of_pos_right _ (Nat.succ_pos k)
    have hsome : c.tree.ancestor b ((c.tree.nHeight b : ℤ) - d.period) = some a :=
      ancestor_eq_some.mpr ⟨ha, by omega⟩
    have haK : c.tree.nHeight a + 1 = d.period * (k + 1) := by omega
    rw [hsome]
    constructor
    · intro e he
      obtain rfl := Option.some.inj he
      exact ⟨k + 1, haK⟩
    · show _ = c.nextState d (c.periodState d _ a) b
      rw [haK, Nat.mul_div_cancel_left _ hP, periodState_line ha]
      rw [haK, Nat.mul_comm]

theorem periodStart_spec (hP : 0 < d.period) (pindexPrev : Option BlockPtr) :
    c.Boundary d (c.periodStart d pindexPrev) ∧
      c.stateOf d (c.periodStart d pindexPrev) = c.stateOf d pindexPrev := by
  rcases pindexPrev with - | b
  · refine ⟨?_, rfl⟩
    intro _ h
    cases h
  have hmod : (c.tree.nHeight b + 1) % d.period + d.period * ((c.tree.nHeight b + 1) / d.period) =
      c.tree.nHeight b + 1 := Nat.mod_add_div _ _
  rcases hk : (c.tree.nHeight b + 1) / d.period with - | k
  · have hnone : c.periodStart d (some b) = none := by
      apply if_pos
      rw [hk] at hmod
      omega
    rw [hnone]
    constructor
    · intro _ h
      cases h
    · show THRESHOLD_DEFINED = c.periodState d _ b
      rw [hk]
      rfl
  · rw [hk, Nat.mul_succ] at hmod
    obtain ⟨a, ha, hha⟩ := exists_mem_line c.tree.graded (b := b)
      (n := c.tree.nHeight b - (c.tree.nHeight b + 1) % d.period) (Nat.sub_le _ _)
    have hsome : c.periodStart d (some b) = some a := ancestor_eq_some.mpr ⟨ha, by omega⟩
    have haK : c.tree.nHeight a + 1 = d.period * (k + 1) := by
      rw [Nat.mul_succ]
      omega
    rw [hsome]
    constructor
    · intro e he
      obtain rfl := Option.some.inj he
      exact ⟨k + 1, haK⟩
    · apply stateOf_period ha
      rw [hk, haK, Nat.mul_div_cancel_left _ hP]

theorem stateOf_early (hmono : ∀ b p, c.tree.pprev b = some p →
      c.getMedianTimePast p ≤ c.getMedianTimePast b) (htime : d.beginTime ≤ d.endTime) (hb : (c.getMedianTimePast b : ℤ) < d.beginTime) :
    c.stateOf d (some b) = THRESHOLD_DEFINED := by
  have h : ∀ k, c.periodState d k b = THRESHOLD_DEFINED := by
    intro k
    induction k with
    | zero => rfl
    | succ k ih =>
      rw [periodState, ih]
      rcases he : c.tree.getAncestor b ((k + 1) * d.period - 1) with - | e
      · rfl
      · have hle : c.getMedianTimePast e ≤ c.getMedianTimePast b :=
          le_of_mem_line c.tree.graded hmono (BlockTree.getAncestor_eq_some.mp he).1
        show (if _ then _ else _) = _
        rw [if_neg (by omega), if_neg (by omega)]
  exact h _

/-! ### The two loops -/

/-- Every entry is the state it should be, of the last block of a period. -/
def Valid (c : BlockStore) (d : ThresholdConditionChecker) (cache : ThresholdConditionCache) : Prop :=
  ∀ pindexPrev state, cache pindexPrev = some state →
    c.Boundary d pindexPrev ∧ state = c.stateOf d pindexPrev

theorem Valid.empty : c.Valid d fun _ => none := by
  intro _ _ h
  cases h

theorem Valid.insert {cache : ThresholdConditionCache} (h : c.Valid d cache)
    {pindexPrev : Option BlockPtr} (hb : c.Boundary d pindexPrev) {state : ThresholdState}
    (hs : state = c.stateOf d pindexPrev) :
    c.Valid d (Function.update cache pindexPrev (some state)) := by
  intro q state' hq
  by_cases heq : q = pindexPrev
  · subst heq
    rw [Function.update_self] at hq
    obtain rfl := Option.some.inj hq
    exact ⟨hb, hs⟩
  · rw [Function.update_of_ne heq] at hq
    exact h q state' hq

/-- What `vToCompute` holds: from the block behind `start`, the ends of the periods up to
`last`. -/
def Chained (c : BlockStore) (d : ThresholdConditionChecker) :
    Option BlockPtr → List BlockPtr → Option BlockPtr → Prop
  | start, [], last => start = last
  | start, b :: vToCompute, last =>
    (c.Boundary d (some b) ∧ c.tree.ancestor b ((c.tree.nHeight b : ℤ) - d.period) = start) ∧
      Chained c d (some b) vToCompute last

theorem walkBack_spec (hP : 0 < d.period)
    (hmono : ∀ b p, c.tree.pprev b = some p → c.getMedianTimePast p ≤ c.getMedianTimePast b)
    (htime : d.beginTime ≤ d.endTime) {cache : ThresholdConditionCache} (hv : c.Valid d cache)
    {last : Option BlockPtr} : ∀ {fuel : ℕ} {vToCompute : List BlockPtr}
    {pindexPrev : Option BlockPtr}, c.walkFuel pindexPrev ≤ fuel → c.Boundary d pindexPrev →
    c.Chained d pindexPrev vToCompute last →
    ∃ cache' vToCompute' start,
      c.walkBack d fuel cache vToCompute pindexPrev = some (cache', vToCompute', start) ∧
        c.Valid d cache' ∧ cache' start = some (c.stateOf d start) ∧
        c.Chained d start vToCompute' last := by
  intro fuel
  induction fuel with
  | zero =>
    intro v q hf
    cases q <;> exact absurd hf (by simp [walkFuel])
  | succ fuel ih =>
    intro v q hf hb hc
    unfold walkBack
    split
    next h =>
      obtain ⟨state, hstate⟩ := Option.isSome_iff_exists.mp h
      exact ⟨cache, v, q, rfl, hv, (hv q state hstate).2 ▸ hstate, hc⟩
    next =>
      rcases q with - | b
      · exact ⟨_, v, none, rfl, hv.insert hb rfl, Function.update_self .., hc⟩
      · dsimp only
        split
        next hearly =>
          have hstate := stateOf_early hmono htime hearly
          refine ⟨_, v, some b, rfl, hv.insert hb hstate.symm, ?_, hc⟩
          rw [Function.update_self, hstate]
        next =>
          obtain ⟨hback, -⟩ := previous_period hP hb
          refine ih ?_ hback ⟨⟨hb, rfl⟩, hc⟩
          -- the height falls by a whole period
          rcases ha : c.tree.ancestor b ((c.tree.nHeight b : ℤ) - d.period) with - | a
          · exact Nat.le_of_succ_le_succ (le_trans (by simp [walkFuel]) hf)
          · have hh := (ancestor_eq_some.mp ha).2
            unfold walkFuel at hf ⊢
            simp only at hf ⊢
            omega

theorem walkForward_spec (hP : 0 < d.period) {last : Option BlockPtr} :
    ∀ {vToCompute : List BlockPtr} {start : Option BlockPtr} {cache : ThresholdConditionCache},
    c.Valid d cache → c.Chained d start vToCompute last →
    ∃ cache', c.walkForward d vToCompute (c.stateOf d start) cache =
      some (c.stateOf d last, cache') ∧ c.Valid d cache' := by
  intro v
  induction v with
  | nil =>
    rintro start cache hv rfl
    exact ⟨cache, rfl, hv⟩
  | cons b v ih =>
    rintro start cache hv ⟨⟨hb, rfl⟩, hc⟩
    obtain ⟨-, hnext⟩ := previous_period hP hb
    rw [walkForward, stateNext_eq (period_le hb), ← hnext]
    exact ih (hv.insert hb rfl) hc

/-! ### Queries -/

theorem getStateFor_eq (hP : 0 < d.period)
    (hmono : ∀ b p, c.tree.pprev b = some p → c.getMedianTimePast p ≤ c.getMedianTimePast b)
    (htime : d.beginTime ≤ d.endTime) {cache : ThresholdConditionCache} (hv : c.Valid d cache)
    (pindexPrev : Option BlockPtr) :
    ∃ cache', c.getStateFor d pindexPrev cache = some (c.stateOf d pindexPrev, cache') ∧
      c.Valid d cache' := by
  obtain ⟨hb, hstate⟩ := periodStart_spec (c := c) hP pindexPrev
  have hempty : c.Chained d (c.periodStart d pindexPrev) [] (c.periodStart d pindexPrev) := rfl
  obtain ⟨cache₁, v, start, hback, hv₁, hstart, hc⟩ := walkBack_spec hP hmono htime hv
    (le_refl _) hb hempty
  obtain ⟨cache₂, hforward, hv₂⟩ := walkForward_spec hP hv₁ hc
  refine ⟨cache₂, ?_, hv₂⟩
  rw [getStateFor, hback]
  simp only [hstart, hforward, hstate]

theorem getStates_eq (hP : 0 < d.period)
    (hmono : ∀ b p, c.tree.pprev b = some p → c.getMedianTimePast p ≤ c.getMedianTimePast b)
    (htime : d.beginTime ≤ d.endTime) : ∀ {queries : List (Option BlockPtr)}
    {cache : ThresholdConditionCache}, c.Valid d cache →
    c.getStates d queries cache = some (queries.map (c.stateOf d)) := by
  intro queries
  induction queries with
  | nil => exact fun _ => rfl
  | cons q queries ih =>
    intro cache hv
    obtain ⟨cache', hq, hv'⟩ := getStateFor_eq hP hmono htime hv q
    rw [getStates, hq]
    simp only [ih hv', Option.map_some, List.map_cons]

/-- **The states do not depend on the cache.**  Any queries that share a cache are answered
with the states of the recursion over whole periods.  These are the same for all blocks of a
period and never move backwards along a chain. -/
theorem getStateFor_independent (c : BlockStore) (d : ThresholdConditionChecker)
    (hP : 0 < d.period)
    (hmono : ∀ b p, c.tree.pprev b = some p → c.getMedianTimePast p ≤ c.getMedianTimePast b)
    (htime : d.beginTime ≤ d.endTime) :
    (∀ queries, c.getStates d queries (fun _ => none) = some (queries.map (c.stateOf d))) ∧
      (∀ a b, a ∈ c.tree.line b →
        (c.tree.nHeight a + 1) / d.period = (c.tree.nHeight b + 1) / d.period →
        c.stateOf d (some a) = c.stateOf d (some b)) ∧
      (∀ b, c.stateOf d none = THRESHOLD_DEFINED ∧
        ∀ a ∈ c.tree.line b, (c.stateOf d (some a)).Forward (c.stateOf d (some b))) := by
  refine ⟨?_, ?_, ?_⟩
  · exact fun queries => getStates_eq hP hmono htime Valid.empty
  · exact fun a b h hk => stateOf_period h hk
  · exact fun b => ⟨rfl, fun a h => stateOf_forward h⟩

end BlockStore

def twoBlockPeriods : ThresholdConditionChecker where
  condition b := decide (2 ≤ b.addr)
  beginTime := 1
  endTime := 100
  period := 2
  threshold := 2

/-- The last block first, an earlier period from the cache, and the genesis block. -/
theorem BlockStore.getStateFor_independent_sixBlocks :
    sixBlocks.getStates twoBlockPeriods [some ⟨5⟩, some ⟨2⟩, none] (fun _ => none) =
      some [THRESHOLD_ACTIVE, THRESHOLD_STARTED, THRESHOLD_DEFINED] := by
  have hstates : [some ⟨5⟩, some ⟨2⟩, none].map (sixBlocks.stateOf twoBlockPeriods) =
      [THRESHOLD_ACTIVE, THRESHOLD_STARTED, THRESHOLD_DEFINED] := by decide +kernel
  rw [← hstates]
  exact (getStateFor_independent sixBlocks twoBlockPeriods (by decide)
    (fun _ _ hp => getMedianTimePast_child sixBlocks_rise hp) (by decide)).1 _

end Stonecoin
