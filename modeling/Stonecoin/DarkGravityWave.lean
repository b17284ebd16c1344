/-
The next target (`pow.cpp`, `DarkGravityWave`): an average of the targets of the last 24 blocks,
scaled by the time that they took.

A chain is the list of its blocks from `pindexLast` back to the genesis block.  Beside the code
stands the formula over unbounded integers; the two agree as long as the limit leaves room for 24
times itself and for three times the timespan.

  * `darkGravityWave_bounds`: the target, and its bounds.
-/
import Stonecoin.ArithUint256

namespace Stonecoin.DarkGravity

/-- What the computation reads of `Consensus::Params`. -/
structure PowParams where
  powLimit : UInt256
  nPowTargetSpacing : ℤ
  nPowNewTargetSpacing : ℤ
  nStoneForkBlock : ℤ
deriving DecidableEq

def mainPow : PowParams :=
  { powLimit := 0x00000fffff000000000000000000000000000000000000000000000000000000
    nPowTargetSpacing := 2 * 60
    nPowNewTargetSpacing := 2 * 60
    nStoneForkBlock := 92000 }

def testPow : PowParams :=
  { powLimit := 0x00000fffff000000000000000000000000000000000000000000000000000000
    nPowTargetSpacing := 2 * 60
    nPowNewTargetSpacing := 180
    nStoneForkBlock := 90000 }

structure CBlockIndex where
  nHeight : ℤ
  nTime : UInt32
  nBits : UInt32
deriving DecidableEq, Repr

def PastBlocksMin : ℕ := 24
def PastBlocksMax : ℕ := 24

/-- The variables of the loop. -/
structure Past where
  nActualTimespan : ℤ
  LastBlockTime : ℤ
  CountBlocks : ℕ
  PastDifficultyAverage : UInt256
  PastDifficultyAveragePrev : UInt256
deriving DecidableEq

def Past.start : Past := ⟨0, 0, 0, 0, 0⟩

/-- The new averages: the first target, then what is read weighted against the average so far. -/
def averaged (past : Past) (CountBlocks : ℕ) (nBits : UInt32) : Option (UInt256 × UInt256) :=
  if CountBlocks ≤ PastBlocksMin then
    if CountBlocks = 1 then some ((setCompact nBits).value, (setCompact nBits).value)
    else
      -- the product is the one with a `uint32_t`
      (divide (mul32 past.PastDifficultyAveragePrev (UInt32.ofNat CountBlocks) +
          (setCompact nBits).value) (BitVec.ofNat 256 (CountBlocks + 1))).map
        fun average => (average, average)
  else some (past.PastDifficultyAverage, past.PastDifficultyAveragePrev)

/-- One pass of the loop. -/
def readBlock (past : Past) (BlockReading : CBlockIndex) : Option Past :=
  let CountBlocks := past.CountBlocks + 1
  (averaged past CountBlocks BlockReading.nBits).map fun averages =>
    { nActualTimespan :=
        if 0 < past.LastBlockTime then
          past.nActualTimespan + (past.LastBlockTime - BlockReading.nTime.toNat)
        else past.nActualTimespan
      LastBlockTime := BlockReading.nTime.toNat
      CountBlocks := CountBlocks
      PastDifficultyAverage := averages.1
      PastDifficultyAveragePrev := averages.2 }

/-- The loop, from its pass `i` on. -/
def dgwLoop : ℕ → List CBlockIndex → Past → Option Past
  | _, [], past => some past
  | i, BlockReading :: chain, past =>
    if ¬ 0 < BlockReading.nHeight then some past
    else if 0 < PastBlocksMax ∧ PastBlocksMax < i then some past
    else (readBlock past BlockReading).bind (dgwLoop (i + 1) chain)

def PowParams.powTargetSpace (params : PowParams) (nHeight : ℤ) : ℤ :=
  if params.nStoneForkBlock < nHeight then params.nPowNewTargetSpacing
  else params.nPowTargetSpacing

def clampTimespan (nActualTimespan nTargetTimespan : ℤ) : ℤ :=
  let t := if nActualTimespan < nTargetTimespan.tdiv 3 then nTargetTimespan.tdiv 3
    else nActualTimespan
  if nTargetTimespan * 3 < t then nTargetTimespan * 3 else t

/-- `DarkGravityWave`, on the chain of `pindexLast`; `none` is a null pointer or an exception. -/
def darkGravityWave (params : PowParams) : List CBlockIndex → Option ℕ
  | [] => none
  | pindexLast :: chain =>
    if pindexLast.nHeight = 0 ∨ pindexLast.nHeight < PastBlocksMin then
      some (getCompact params.powLimit)
    else
      (dgwLoop 1 (pindexLast :: chain) Past.start).bind fun past =>
        let nTargetTimespan := past.CountBlocks * params.powTargetSpace pindexLast.nHeight
        let nActualTimespan := clampTimespan past.nActualTimespan nTargetTimespan
        -- the timespans are converted to `uint32_t` and to `uint64_t`
        (divide (mul32 past.PastDifficultyAverage (UInt32.ofNat (nActualTimespan % 2 ^ 32).toNat))
          (BitVec.ofNat 256 (nTargetTimespan % 2 ^ 64).toNat)).map fun bnNew =>
            getCompact (if params.powLimit < bnNew then params.powLimit else bnNew)

/-! ### The formula over unbounded integers -/

/-- The averages, when `count` weights the one so far. -/
def averageFrom : ℕ → ℕ → List ℕ → ℕ
  | _, average, [] => average
  | count, average, target :: targets =>
    averageFrom (count + 1) ((average * count + target) / (count + 1)) targets

/-- The average of some targets, the latest first. -/
def averageTarget : List ℕ → ℕ
  | [] => 0
  | target :: targets => averageFrom 2 target targets

/-- The time between some blocks, the latest first.  A block of time zero counts for nothing. -/
def timespan : List ℕ → ℤ
  | [] => 0
  | [_] => 0
  | last :: time :: times => (if 0 < last then (last : ℤ) - time else 0) + timespan (time :: times)

def boundedTimespan (nTargetTimespan : ℕ) (times : List ℕ) : ℕ :=
  (min (max (timespan times) (nTargetTimespan / 3 : ℕ)) (nTargetTimespan * 3 : ℕ)).toNat

def nextTarget (powLimit nTargetTimespan : ℕ) (targets times : List ℕ) : ℕ :=
  min powLimit (averageTarget targets * boundedTimespan nTargetTimespan times / nTargetTimespan)

theorem averageFrom_le {m : ℕ} : ∀ {targets : List ℕ} {count average : ℕ},
    average ≤ m → (∀ t ∈ targets, t ≤ m) → averageFrom count average targets ≤ m := by
  intro targets
  induction targets with
  | nil => exact fun h _ => h
  | cons t targets ih =>
    intro count average haverage htargets
    refine ih ?_ (fun u hu => htargets u (List.mem_cons_of_mem _ hu))
    have ht := htargets t List.mem_cons_self
    refine Nat.div_le_of_le_mul ?_
    calc average * count + t ≤ m * count + m :=
          Nat.add_le_add (Nat.mul_le_mul_right _ haverage) ht
      _ = (count + 1) * m := by ring

theorem le_averageFrom {m : ℕ} : ∀ {targets : List ℕ} {count average : ℕ},
    m ≤ average → (∀ t ∈ targets, m ≤ t) → m ≤ averageFrom count average targets := by
  intro targets
  induction targets with
  | nil => exact fun h _ => h
  | cons t targets ih =>
    intro count average haverage htargets
    refine ih ?_ (fun u hu => htargets u (List.mem_cons_of_mem _ hu))
    have ht := htargets t List.mem_cons_self
    refine (Nat.le_div_iff_mul_le (Nat.succ_pos count)).mpr ?_
    calc m * (count + 1) = m * count + m := by ring
      _ ≤ average * count + t := Nat.add_le_add (Nat.mul_le_mul_right _ haverage) ht

theorem averageTarget_le {m : ℕ} {targets : List ℕ} (h : ∀ t ∈ targets, t ≤ m) :
    averageTarget targets ≤ m := by
  cases targets with
  | nil => exact Nat.zero_le m
  | cons t targets =>
    exact averageFrom_le (h t List.mem_cons_self) (fun u hu => h u (List.mem_cons_of_mem _ hu))

theorem le_averageTarget {m : ℕ} {targets : List ℕ} (hne : targets ≠ [])
    (h : ∀ t ∈ targets, m ≤ t) : m ≤ averageTarget targets := by
  cases targets with
  | nil => exact absurd rfl hne
  | cons t targets =>
    exact le_averageFrom (h t List.mem_cons_self) (fun u hu => h u (List.mem_cons_of_mem _ hu))

/-! ### The loop -/

/-- What is known of the blocks that the computation reads: the targets are numbers below
`2 ^ 236`. -/
def Readable (b : CBlockIndex) : Prop :=
  0 < b.nHeight ∧ (setCompact b.nBits).fOverflow = false ∧ compactValue b.nBits < 2 ^ 236

/-- The state of the loop when it has read `count` blocks, the last one at `time`. -/
structure Past.Read (past : Past) (count average time : ℕ) (span : ℤ) : Prop where
  count : past.CountBlocks = count
  average : past.PastDifficultyAverage.toNat = average
  prev : past.PastDifficultyAveragePrev = past.PastDifficultyAverage
  time : past.LastBlockTime = time
  span : past.nActualTimespan = span

theorem readBlock_first {b : CBlockIndex} (hb : Readable b) :
    ∃ past, readBlock Past.start b = some past ∧
      past.Read 1 (compactValue b.nBits) b.nTime.toNat 0 := by
  refine ⟨_, rfl, ?_⟩
  exact ⟨rfl, setCompact_toNat hb.2.1, rfl, rfl, rfl⟩

theorem readBlock_next {past : Past} {b : CBlockIndex} {count average time : ℕ} {span : ℤ}
    (h : past.Read count average time span) (hcount : 1 ≤ count) (hlt : count < 24)
    (haverage : average < 2 ^ 236) (hb : Readable b) :
    ∃ past', readBlock past b = some past' ∧
      past'.Read (count + 1) ((average * (count + 1) + compactValue b.nBits) / (count + 2))
        b.nTime.toNat (span + if 0 < time then (time : ℤ) - b.nTime.toNat else 0) := by
  have hmul : average * (count + 1) ≤ 2 ^ 236 * 24 := Nat.mul_le_mul haverage.le hlt
  have hbits := hb.2.2
  have hword : (UInt32.ofNat (count + 1)).toNat = count + 1 :=
    UInt32.toNat_ofNat_of_lt' (show count + 1 < 2 ^ 32 by omega)
  have hsum : (mul32 past.PastDifficultyAveragePrev (UInt32.ofNat (count + 1)) +
      (setCompact b.nBits).value).toNat = average * (count + 1) + compactValue b.nBits := by
    rw [BitVec.toNat_add, toNat_mul32, h.prev, h.average, hword, setCompact_toNat hb.2.1,
      Nat.mod_eq_of_lt (show average * (count + 1) < 2 ^ 256 by omega)]
    exact Nat.mod_eq_of_lt (by omega)
  have hdiv : (BitVec.ofNat 256 (count + 2)).toNat = count + 2 := by
    rw [BitVec.toNat_ofNat]
    exact Nat.mod_eq_of_lt (by omega)
  have hpos : 0 < (BitVec.ofNat 256 (count + 2)).toNat := by
    rw [hdiv]
    exact Nat.succ_pos (count + 1)
  obtain ⟨c, hc, hquotient⟩ := divide_eq (mul32 past.PastDifficultyAveragePrev
    (UInt32.ofNat (count + 1)) + (setCompact b.nBits).value) hpos
  rw [hsum, hdiv] at hquotient
  have haveraged : averaged past (count + 1) b.nBits = some (c, c) := by
    unfold averaged
    rw [if_pos (show count + 1 ≤ PastBlocksMin from hlt), if_neg (show count + 1 ≠ 1 by omega), hc]
    rfl
  unfold readBlock
  dsimp only
  rw [h.count, haveraged]
  refine ⟨_, rfl, ⟨rfl, hquotient, rfl, rfl, ?_⟩⟩
  dsimp only
  rw [h.time, h.span]
  by_cases htime : 0 < time
  · rw [if_pos htime, if_pos (Int.natCast_pos.mpr htime)]
  · rw [if_neg htime, if_neg (fun hpos => htime (Int.natCast_pos.mp hpos)), Int.add_zero]

theorem dgwLoop_eq {tail : List CBlockIndex} : ∀ {blocks : List CBlockIndex} {past : Past}
    {count average time : ℕ} {span : ℤ}, past.Read count average time span → 1 ≤ count →
      count + blocks.length = 24 → average < 2 ^ 236 → (∀ b ∈ blocks, Readable b) →
        ∃ past' time', dgwLoop (count + 1) (blocks ++ tail) past = some past' ∧
          past'.Read 24 (averageFrom (count + 1) average (blocks.map fun b => compactValue b.nBits))
            time' (span + timespan (time :: blocks.map fun b => b.nTime.toNat)) := by
  intro blocks
  induction blocks with
  | nil =>
    intro past count average time span h hcount hlength _ _
    have hstop : dgwLoop (count + 1) tail past = some past := by
      cases tail with
      | nil => rfl
      | cons b tail =>
        have hmax : 0 < PastBlocksMax ∧ PastBlocksMax < count + 1 :=
          ⟨by decide, Nat.lt_succ_of_le hlength.ge⟩
        rw [dgwLoop, if_pos hmax, ite_self]
    have h24 : count = 24 := hlength
    refine ⟨past, time, hstop, h24 ▸ ?_⟩
    simpa [averageFrom, timespan] using h
  | cons b blocks ih =>
    intro past count average time span h hcount hlength haverage hblocks
    rw [List.length_cons] at hlength
    have hb := hblocks b List.mem_cons_self
    obtain ⟨next, hread, hnext⟩ := readBlock_next h hcount (by omega) haverage hb
    have hless : (average * (count + 1) + compactValue b.nBits) / (count + 2) < 2 ^ 236 := by
      refine (Nat.div_lt_iff_lt_mul (Nat.succ_pos _)).mpr ?_
      have hmul : average * (count + 1) ≤ 2 ^ 236 * (count + 1) :=
        Nat.mul_le_mul_right _ haverage.le
      have hbits := hb.2.2
      calc average * (count + 1) + compactValue b.nBits < 2 ^ 236 * (count + 1) + 2 ^ 236 :=
            Nat.add_lt_add_of_le_of_lt hmul hbits
        _ = 2 ^ 236 * (count + 2) := by ring
    obtain ⟨past', time', hloop, hpast⟩ := ih hnext (Nat.succ_le_succ (Nat.zero_le _)) (by omega)
      hless (fun b' hb' => hblocks b' (List.mem_cons_of_mem _ hb'))
    have hmax : ¬ (0 < PastBlocksMax ∧ PastBlocksMax < count + 1) :=
      fun hm => absurd hm.2 (show ¬ 24 < count + 1 by omega)
    refine ⟨past', time', ?_, ?_⟩
    · rw [List.cons_append, dgwLoop, if_neg (not_not_intro hb.1), if_neg hmax, hread]
      exact hloop
    · rw [List.map_cons, List.map_cons, averageFrom, timespan, ← Int.add_assoc]
      exact hpast

/-! ### The target -/

/-- The heights of a chain go down to that of the genesis block. -/
def Descends : List CBlockIndex → Prop
  | [] => True
  | b :: chain => b.nHeight = chain.length ∧ Descends chain

/-- The limit and the spacings leave room for the computation. -/
structure PowParams.InBounds (params : PowParams) : Prop where
  powLimit : params.powLimit.toNat < 2 ^ 236
  oldSpacing : 0 < params.nPowTargetSpacing ∧ params.nPowTargetSpacing ≤ 180
  newSpacing : 0 < params.nPowNewTargetSpacing ∧ params.nPowNewTargetSpacing ≤ 180

theorem mainPow_inBounds : mainPow.InBounds := ⟨by decide, by decide, by decide⟩

structure GoodBits (params : PowParams) (nBits : UInt32) : Prop where
  notNegative : (setCompact nBits).fNegative = false
  notOverflow : (setCompact nBits).fOverflow = false
  pos : 0 < compactValue nBits
  le : compactValue nBits ≤ params.powLimit.toNat

theorem PowParams.InBounds.powTargetSpace {params : PowParams} (h : params.InBounds)
    (nHeight : ℤ) : 0 < params.powTargetSpace nHeight ∧ params.powTargetSpace nHeight ≤ 180 := by
  unfold PowParams.powTargetSpace
  split
  · exact h.newSpacing
  · exact h.oldSpacing

theorem Descends.pos_of_mem_take : ∀ {k : ℕ} {chain : List CBlockIndex}, Descends chain →
    k < chain.length → ∀ b ∈ chain.take k, 0 < b.nHeight := by
  intro k
  induction k with
  | zero => exact fun _ _ b hb => absurd hb List.not_mem_nil
  | succ k ih =>
    intro chain h hlt b hb
    cases chain with
    | nil => exact absurd hlt (Nat.not_lt_zero _)
    | cons b' chain =>
      have hrest : k < chain.length := Nat.lt_of_succ_lt_succ hlt
      rcases List.mem_cons.mp hb with rfl | hb
      · rw [h.1]
        exact Int.natCast_pos.mpr (Nat.zero_lt_of_lt hrest)
      · exact ih h.2 hrest b hb

theorem clampTimespan_eq (nTargetTimespan : ℕ) (times : List ℕ) :
    clampTimespan (timespan times) nTargetTimespan =
      (boundedTimespan nTargetTimespan times : ℕ) := by
  have hdiv : (nTargetTimespan : ℤ).tdiv 3 = (nTargetTimespan / 3 : ℕ) := rfl
  unfold clampTimespan boundedTimespan
  rw [hdiv]
  dsimp only
  split_ifs <;> omega

theorem boundedTimespan_bounds (nTargetTimespan : ℕ) (times : List ℕ) :
    nTargetTimespan / 3 ≤ boundedTimespan nTargetTimespan times ∧
      boundedTimespan nTargetTimespan times ≤ nTargetTimespan * 3 := by
  unfold boundedTimespan
  omega

theorem readable_take {params : PowParams} (hparams : params.InBounds)
    {chain : List CBlockIndex} (hchain : Descends chain) (hlength : 24 < chain.length)
    (hbits : ∀ b ∈ chain.take 24, GoodBits params b.nBits) : ∀ b ∈ chain.take 24, Readable b :=
  fun b hb => ⟨hchain.pos_of_mem_take hlength b hb, (hbits b hb).notOverflow,
    (hbits b hb).le.trans_lt hparams.powLimit⟩

theorem dgwLoop_start {pindexLast : CBlockIndex} {chain : List CBlockIndex}
    (hlength : 23 ≤ chain.length)
    (hread : ∀ b ∈ (pindexLast :: chain).take 24, Readable b) :
    ∃ past time, dgwLoop 1 (pindexLast :: chain) Past.start = some past ∧
      past.Read 24
        (averageTarget (((pindexLast :: chain).take 24).map fun b => compactValue b.nBits)) time
        (timespan (((pindexLast :: chain).take 24).map fun b => b.nTime.toNat)) := by
  rw [List.take_succ_cons] at hread ⊢
  have hlast := hread pindexLast List.mem_cons_self
  have htake : 1 + (chain.take 23).length = 24 := by
    rw [List.length_take]
    omega
  obtain ⟨first, hfirst, hone⟩ := readBlock_first hlast
  obtain ⟨past, time, hloop, hpast⟩ := dgwLoop_eq hone le_rfl htake
    hlast.2.2 (fun b hb => hread b (List.mem_cons_of_mem _ hb))
  rw [List.take_append_drop] at hloop
  refine ⟨past, time, ?_, ?_⟩
  · rw [dgwLoop, if_neg (not_not_intro hlast.1), if_neg (by decide), hfirst]
    exact hloop
  · rw [Int.zero_add] at hpast
    exact hpast

theorem retarget_eq {powLimit average : UInt256} {span T : ℕ} (hT : 0 < T) (hT' : T < 2 ^ 64)
    (hspan : span < 2 ^ 32) (hproduct : average.toNat * span < 2 ^ 256) :
    (divide (mul32 average (UInt32.ofNat ((span : ℤ) % 2 ^ 32).toNat))
        (BitVec.ofNat 256 ((T : ℤ) % 2 ^ 64).toNat)).map
        (fun bnNew => getCompact (if powLimit < bnNew then powLimit else bnNew)) =
      some (getCompact (BitVec.ofNat 256 (min powLimit.toNat (average.toNat * span / T)))) := by
  have hspan' : ((span : ℤ) % 2 ^ 32).toNat = span := by omega
  have hT'' : ((T : ℤ) % 2 ^ 64).toNat = T := by omega
  have hword : (UInt32.ofNat span).toNat = span := UInt32.toNat_ofNat_of_lt' hspan
  have hmul : (mul32 average (UInt32.ofNat span)).toNat = average.toNat * span := by
    rw [toNat_mul32, hword, Nat.mod_eq_of_lt hproduct]
  have hdivisor : (BitVec.ofNat 256 T).toNat = T := by
    rw [BitVec.toNat_ofNat]
    exact Nat.mod_eq_of_lt (by omega)
  obtain ⟨bnNew, hdivide, hquotient⟩ := divide_eq (mul32 average (UInt32.ofNat span))
    (hdivisor.symm ▸ hT : 0 < (BitVec.ofNat 256 T).toNat)
  rw [hmul, hdivisor] at hquotient
  rw [hspan', hT'', hdivide, ← hquotient, Option.map_some]
  have hmin : (if powLimit < bnNew then powLimit else bnNew) =
      BitVec.ofNat 256 (min powLimit.toNat bnNew.toNat) := by
    by_cases hlt : powLimit < bnNew
    · have hlt' : powLimit.toNat < bnNew.toNat := hlt
      rw [if_pos hlt, min_eq_left hlt'.le, BitVec.ofNat_toNat, BitVec.setWidth_eq]
    · have hge : bnNew.toNat ≤ powLimit.toNat := Nat.le_of_not_lt hlt
      rw [if_neg hlt, min_eq_right hge, BitVec.ofNat_toNat, BitVec.setWidth_eq]
  rw [hmin]

theorem nextTarget_bounds {powLimit spacing lo hi : ℕ} {targets : List ℕ} (times : List ℕ)
    (hspacing : 0 < spacing) (hne : targets ≠ []) (hlo : ∀ t ∈ targets, lo ≤ t)
    (hhi : ∀ t ∈ targets, t ≤ hi) (hlimit : lo ≤ powLimit) :
    lo / 3 ≤ nextTarget powLimit (24 * spacing) targets times ∧
      nextTarget powLimit (24 * spacing) targets times ≤ min powLimit (3 * hi) := by
  have hT : 0 < 24 * spacing := Nat.mul_pos (by decide) hspacing
  obtain ⟨hleast, hmost⟩ := boundedTimespan_bounds (24 * spacing) times
  have hthird : 24 * spacing / 3 = 8 * spacing := by omega
  refine ⟨Nat.le_min.mpr ⟨?_, ?_⟩, Nat.le_min.mpr ⟨Nat.min_le_left _ _, ?_⟩⟩
  · exact (Nat.div_le_self lo 3).trans hlimit
  · refine (Nat.le_div_iff_mul_le hT).mpr ?_
    calc lo / 3 * (24 * spacing) = lo / 3 * 3 * (8 * spacing) := by ring
      _ ≤ lo * (8 * spacing) := Nat.mul_le_mul_right _ (Nat.div_mul_le_self lo 3)
      _ ≤ averageTarget targets * boundedTimespan (24 * spacing) times :=
          Nat.mul_le_mul (le_averageTarget hne hlo) (hthird ▸ hleast)
  · refine (Nat.min_le_right _ _).trans (Nat.div_le_of_le_mul ?_)
    calc averageTarget targets * boundedTimespan (24 * spacing) times
        ≤ hi * (24 * spacing * 3) := Nat.mul_le_mul (averageTarget_le hhi) hmost
      _ = 24 * spacing * (3 * hi) := by ring

/-- **The next target.** -/
theorem darkGravityWave_bounds {params : PowParams} (hparams : params.InBounds)
    {pindexLast : CBlockIndex} {chain : List CBlockIndex}
    (hchain : Descends (pindexLast :: chain)) (hheight : 24 ≤ pindexLast.nHeight)
    (hbits : ∀ b ∈ (pindexLast :: chain).take 24, GoodBits params b.nBits) :
    let blocks := (pindexLast :: chain).take 24
    let targets := blocks.map fun b => compactValue b.nBits
    let times := blocks.map fun b => b.nTime.toNat
    let nTargetTimespan := (24 * params.powTargetSpace pindexLast.nHeight).toNat
    let target := nextTarget params.powLimit.toNat nTargetTimespan targets times
    -- the result is that of the formula over unbounded integers
    darkGravityWave params (pindexLast :: chain) = some (getCompact (BitVec.ofNat 256 target)) ∧
      -- no number that is computed overflows
      (∀ i t, 0 < i → targets[i]? = some t →
        averageTarget (targets.take i) * (i + 1) + t < 2 ^ 256) ∧
      averageTarget targets * boundedTimespan nTargetTimespan times < 2 ^ 256 ∧
      0 < nTargetTimespan ∧ 0 < boundedTimespan nTargetTimespan times ∧
      boundedTimespan nTargetTimespan times < 2 ^ 32 ∧
      -- and the target is between the least and the greatest of those that were read
      ∃ lo hi, targets.min? = some lo ∧ targets.max? = some hi ∧
        target ≤ min params.powLimit.toNat (3 * hi) ∧ ((lo : ℤ) - 25) / 3 ≤ target := by
  intro blocks targets times nTargetTimespan target
  obtain ⟨hpos, hle⟩ := hparams.powTargetSpace pindexLast.nHeight
  obtain ⟨spacing, hspacing⟩ : ∃ n : ℕ, params.powTargetSpace pindexLast.nHeight = n :=
    ⟨_, (Int.toNat_of_nonneg hpos.le).symm⟩
  rw [hspacing] at hpos hle
  have hT : nTargetTimespan = 24 * spacing := by
    show (24 * params.powTargetSpace pindexLast.nHeight).toNat = 24 * spacing
    rw [hspacing]
    omega
  have hlength : 24 ≤ chain.length := by
    have h := hchain.1
    omega
  have hread : ∀ b ∈ blocks, Readable b :=
    readable_take hparams hchain (Nat.lt_succ_of_le hlength) hbits
  have htargets : ∀ t ∈ targets, t ≤ params.powLimit.toNat := by
    intro t ht
    obtain ⟨b, hb, rfl⟩ := List.mem_map.mp ht
    exact (hbits b hb).le
  have hlimit := hparams.powLimit
  have haverage : averageTarget targets ≤ params.powLimit.toNat := averageTarget_le htargets
  obtain ⟨hleast, hmost⟩ := boundedTimespan_bounds nTargetTimespan times
  have hproduct : averageTarget targets * boundedTimespan nTargetTimespan times < 2 ^ 256 := by
    have hmul : averageTarget targets * boundedTimespan nTargetTimespan times ≤ 2 ^ 236 * 12960 :=
      Nat.mul_le_mul (haverage.trans hlimit.le) (by omega)
    omega
  have hspan : boundedTimespan nTargetTimespan times < 2 ^ 32 := by omega
  have hne : targets ≠ [] := List.cons_ne_nil _ _
  refine ⟨?_, ?_, hproduct, by omega, by omega, hspan, ?_⟩
  · obtain ⟨past, time, hloop, hpast⟩ := dgwLoop_start (Nat.le_of_succ_le hlength) hread
    have hcount : ((24 : ℕ) : ℤ) * (spacing : ℤ) = (nTargetTimespan : ℕ) := by
      rw [hT]
      rfl
    have hmin : ((PastBlocksMin : ℕ) : ℤ) = 24 := rfl
    have hhigh : ¬ (pindexLast.nHeight = 0 ∨ pindexLast.nHeight < PastBlocksMin) := by
      rw [hmin]
      omega
    rw [darkGravityWave, if_neg hhigh, hloop, Option.bind_some]
    dsimp only
    rw [hpast.count, hpast.span, hspacing, hcount, clampTimespan_eq]
    rw [retarget_eq (by omega) (by omega) hspan (by rw [hpast.average]; exact hproduct),
      hpast.average]
    rfl
  · intro i t hi ht
    have htake : averageTarget (targets.take i) ≤ params.powLimit.toNat :=
      averageTarget_le (fun t ht => htargets t (List.mem_of_mem_take ht))
    have hlast := htargets t (List.mem_of_getElem? ht)
    have hi24 : i < 24 := by
      have hlt := (List.getElem?_eq_some_iff.mp ht).1
      rw [List.length_map, List.length_take] at hlt
      omega
    have hmul : averageTarget (targets.take i) * (i + 1) ≤ 2 ^ 236 * 24 :=
      Nat.mul_le_mul (htake.trans hlimit.le) hi24
    omega
  · obtain ⟨lo, hlo⟩ := Option.isSome_iff_exists.mp (List.isSome_min?_of_ne_nil hne)
    obtain ⟨hi, hhi⟩ := Option.isSome_iff_exists.mp (List.isSome_max?_of_ne_nil hne)
    obtain ⟨hmem, hlo'⟩ := List.min?_eq_some_iff.mp hlo
    have hhi' := (List.max?_eq_some_iff.mp hhi).2
    obtain ⟨hbelow, habove⟩ := nextTarget_bounds times (Int.natCast_pos.mp hpos) hne hlo' hhi'
      (htargets lo hmem)
    rw [← hT] at hbelow habove
    refine ⟨lo, hi, hlo, hhi, habove, ?_⟩
    have hthird : ((lo : ℤ) - 25) / 3 ≤ (lo / 3 : ℕ) := by omega
    exact hthird.trans (Int.ofNat_le.mpr hbelow)

def minuteChain : ℕ → List CBlockIndex
  | 0 => [⟨0, 1000, 0x1e0fffff⟩]
  | n + 1 => ⟨n + 1, 1000 + 60 * UInt32.ofNat n, 0x1e0fffff⟩ :: minuteChain n

theorem length_minuteChain (n : ℕ) : (minuteChain n).length = n + 1 := by
  induction n with
  | zero => rfl
  | succ n ih => rw [minuteChain, List.length_cons, ih]

theorem descends_minuteChain (n : ℕ) : Descends (minuteChain n) := by
  induction n with
  | zero => exact ⟨rfl, trivial⟩
  | succ n ih =>
    refine ⟨?_, ih⟩
    rw [length_minuteChain]
    rfl

theorem nBits_minuteChain {n : ℕ} {b : CBlockIndex} (h : b ∈ minuteChain n) :
    b.nBits = 0x1e0fffff := by
  induction n with
  | zero => rw [List.mem_singleton.mp h]
  | succ n ih =>
    rcases List.mem_cons.mp h with rfl | h
    · rfl
    · exact ih h

theorem goodBits_limit : GoodBits mainPow 0x1e0fffff :=
  ⟨by decide, by decide, by decide, by decide⟩

theorem darkGravityWave_minutes :
    ∃ target, darkGravityWave mainPow (minuteChain 24) =
      some (getCompact (BitVec.ofNat 256 target)) := by
  have hbits : ∀ b ∈ (minuteChain 24).take 24, GoodBits mainPow b.nBits :=
    fun b hb => nBits_minuteChain (List.mem_of_mem_take hb) ▸ goodBits_limit
  exact ⟨_, (darkGravityWave_bounds mainPow_inBounds (descends_minuteChain 24) (by decide) hbits).1⟩

end Stonecoin.DarkGravity
