/-
Users of a mixing session who do not cooperate (`darksend.cpp`): entries that are rejected, and
the collaterals that `ChargeFees` submits when a session times out.

  * `rejected_undisturbed_iff`: when a rejected entry leaves the session alone;
  * `offenders_charged_iff`: when offenders, and only these, can be charged.
-/
import Stonecoin.MixingSessions

namespace Stonecoin

open PoolState PoolMessage

namespace CDarksendPool

/-! ### Rejected entries -/

/-- What the users of a session share. -/
structure Undisturbed (pool pool' : CDarksendPool) : Prop where
  vecEntries : pool'.vecEntries = pool.vecEntries
  vecSessionCollaterals : pool'.vecSessionCollaterals = pool.vecSessionCollaterals
  nSessionID : pool'.nSessionID = pool.nSessionID
  nSessionDenom : pool'.nSessionDenom = pool.nSessionDenom
  nState : pool'.nState = pool.nState

/-- There is no session. -/
structure Idle (pool : CDarksendPool) : Prop where
  vecEntries : pool.vecEntries = []
  vecSessionCollaterals : pool.vecSessionCollaterals = []
  nSessionID : pool.nSessionID = 0
  nSessionDenom : pool.nSessionDenom = 0
  nState : pool.nState = POOL_STATE_IDLE

theorem Undisturbed.refl (pool : CDarksendPool) : Undisturbed pool pool :=
  ⟨rfl, rfl, rfl, rfl, rfl⟩

theorem undisturbed_setNull_iff {pool : CDarksendPool} {t : ℤ} :
    Undisturbed pool (pool.setNull t) ↔ pool.Idle := by
  constructor
  · rintro ⟨hentries, hcollaterals, hid, hdenom, hstate⟩
    exact ⟨hentries.symm, hcollaterals.symm, hid.symm, hdenom.symm, hstate.symm⟩
  · rintro ⟨hentries, hcollaterals, hid, hdenom, hstate⟩
    exact ⟨hentries.symm, hcollaterals.symm, hid.symm, hdenom.symm, hstate.symm⟩

/-- **When a rejected entry leaves the session alone**: it has been refused before it was handed
to `AddEntry`, or there is no session. -/
theorem rejected_undisturbed_iff (params : MixParams) (env : MixEnv) (pool : CDarksendPool)
    (entry : SentEntry) :
    ((pool.processDsVin params env entry).2.fAccepted = false →
      Undisturbed pool (pool.processDsVin params env entry).1) ↔
    (pool.dsVinError params env entry = none → pool.addEntryError params env entry ≠ none →
      pool.Idle) := by
  rw [processDsVin]
  cases hvin : pool.dsVinError params env entry with
  | some nMessageID => exact iff_of_true (fun _ => .refl pool) (fun h => absurd h (by simp))
  | none =>
    cases hadd : pool.addEntryError params env entry with
    | some nMessageID =>
      show (false = false → Undisturbed pool (pool.setNull env.getTimeMillis)) ↔ _
      rw [undisturbed_setNull_iff]
      exact ⟨fun h _ _ => h rfl, fun h _ => h rfl (by simp)⟩
    | none => exact iff_of_true (fun h => absurd h (by simp)) (fun _ h => absurd rfl h)

/-- Three users have joined, and one has sent its entry. -/
def joinedPool : CDarksendPool := (sessionRun 8 0).foldl (CDarksendPool.step mixParams) (init 0)

/-- **The entry of the one user, sent again, is rejected and ends the session of the three.** -/
theorem rejected_resets :
    (joinedPool.processDsVin mixParams mixEnv (entryOfUser 0)).2 = ⟨false, ERR_ALREADY_HAVE⟩ ∧
    joinedPool.vecEntries.length = 1 ∧ joinedPool.vecSessionCollaterals.length = 3 ∧
    (joinedPool.processDsVin mixParams mixEnv (entryOfUser 0)).1.vecEntries = [] ∧
    (joinedPool.processDsVin mixParams mixEnv (entryOfUser 0)).1.vecSessionCollaterals = [] ∧
    ¬ Undisturbed joinedPool (joinedPool.processDsVin mixParams mixEnv (entryOfUser 0)).1 := by
  have hone : joinedPool.vecEntries.length = 1 := by decide +kernel
  have hreset : (joinedPool.processDsVin mixParams mixEnv (entryOfUser 0)).1.vecEntries = [] := by
    decide +kernel
  refine ⟨by decide +kernel, hone, by decide +kernel, hreset, by decide +kernel, fun h => ?_⟩
  rw [← h.vecEntries, hreset] at hone
  exact absurd hone (by decide)

end CDarksendPool

/-! ### Charging offenders -/

structure FeeDraws where
  /-- The two draws of `GetRandInt(100)`. -/
  nCharge : ℕ
  nMostly : ℕ
  /-- `std::random_shuffle`. -/
  randomShuffle : List CTransaction → List CTransaction
  charge_lt : nCharge < 100
  mostly_lt : nMostly < 100
  perm : ∀ l, (randomShuffle l).Perm l

namespace CDarksendPool

variable (params : MixParams) (pool : CDarksendPool)

/-- The entry was sent with this collateral; transactions are compared by their hashes. -/
def hasEntryFor (txCollateral : CTransaction) : Bool :=
  pool.vecEntries.any fun entry => entry.txCollateral.hash = txCollateral.hash

/-- `vecOffendersCollaterals`: one for each collateral without an entry, or one for each input
without a signature. -/
def vecOffendersCollaterals : List CTransaction :=
  match pool.nState with
  | POOL_STATE_ACCEPTING_ENTRIES =>
    pool.vecSessionCollaterals.filter fun txCollateral => !pool.hasEntryFor txCollateral
  | POOL_STATE_SIGNING =>
    pool.vecEntries.flatMap fun entry =>
      (entry.vecTxDSIn.filter fun txdsin => !txdsin.fHasSig).map fun _ => entry.txCollateral
  | _ => []

def chargeFees (draws : FeeDraws) : Option CTransaction :=
  let vecOffendersCollaterals := pool.vecOffendersCollaterals
  -- not every offence is charged
  if 33 < draws.nCharge then none
  else if vecOffendersCollaterals.isEmpty then none
  else if (params.nPoolMaxTransactions : ℤ) - 1 ≤ vecOffendersCollaterals.length ∧
      33 < draws.nMostly then none
  -- "everyone is an offender? That's not right"
  else if (params.nPoolMaxTransactions : ℤ) ≤ vecOffendersCollaterals.length then none
  else (draws.randomShuffle vecOffendersCollaterals).head?

/-- The collateral of a participant who did not do its part. -/
def Offends (txCollateral : CTransaction) : Prop :=
  (pool.nState = POOL_STATE_ACCEPTING_ENTRIES ∧ txCollateral ∈ pool.vecSessionCollaterals ∧
    ∀ entry ∈ pool.vecEntries, entry.txCollateral.hash ≠ txCollateral.hash) ∨
  (pool.nState = POOL_STATE_SIGNING ∧ ∃ entry ∈ pool.vecEntries,
    entry.txCollateral = txCollateral ∧ ∃ txdsin ∈ entry.vecTxDSIn, txdsin.fHasSig = false)

/-- Some participant did its part. -/
def SomeoneBehaved : Prop :=
  (pool.nState = POOL_STATE_ACCEPTING_ENTRIES ∧ ∃ txCollateral ∈ pool.vecSessionCollaterals,
    ∃ entry ∈ pool.vecEntries, entry.txCollateral.hash = txCollateral.hash) ∨
  (pool.nState = POOL_STATE_SIGNING ∧ ∃ entry ∈ pool.vecEntries,
    ∀ txdsin ∈ entry.vecTxDSIn, txdsin.fHasSig = true)

/-- **Offenders are charged, others are not.** -/
structure OffendersCharged : Prop where
  only : ∀ draws txCollateral, pool.chargeFees params draws = some txCollateral →
    pool.Offends txCollateral
  possible : pool.SomeoneBehaved → (∃ txCollateral, pool.Offends txCollateral) →
    ∃ draws txCollateral, pool.chargeFees params draws = some txCollateral ∧
      pool.Offends txCollateral

variable {params pool} {txCollateral : CTransaction}

theorem mem_vecOffendersCollaterals :
    txCollateral ∈ pool.vecOffendersCollaterals ↔ pool.Offends txCollateral := by
  rw [vecOffendersCollaterals, Offends]
  cases pool.nState with
  | POOL_STATE_ACCEPTING_ENTRIES => simp [hasEntryFor, List.mem_filter]
  | POOL_STATE_SIGNING =>
    simp only [List.mem_flatMap, List.mem_map, List.mem_filter, reduceCtorEq, false_and, false_or,
      true_and]
    constructor
    · rintro ⟨entry, hentry, txdsin, ⟨htxdsin, hsig⟩, rfl⟩
      exact ⟨entry, hentry, rfl, txdsin, htxdsin, by simpa using hsig⟩
    · rintro ⟨entry, hentry, rfl, txdsin, htxdsin, hsig⟩
      exact ⟨entry, hentry, txdsin, ⟨htxdsin, by simp [hsig]⟩, rfl⟩
  | POOL_STATE_IDLE => simp
  | POOL_STATE_QUEUE => simp
  | POOL_STATE_ERROR => simp
  | POOL_STATE_SUCCESS => simp

theorem chargeFees_eq_some {draws : FeeDraws}
    (h : pool.chargeFees params draws = some txCollateral) :
    txCollateral ∈ pool.vecOffendersCollaterals ∧
      pool.vecOffendersCollaterals.length < params.nPoolMaxTransactions := by
  rw [chargeFees] at h
  split_ifs at h with hcharge hempty hmostly hall
  refine ⟨(draws.perm _).mem_iff.mp (List.mem_of_head? h), ?_⟩
  exact_mod_cast not_le.mp hall

def charging : FeeDraws := ⟨0, 0, id, by decide, by decide, fun _ => .refl _⟩

theorem chargeFees_charging (hoffence : ∃ txCollateral, pool.Offends txCollateral)
    (hlt : pool.vecOffendersCollaterals.length < params.nPoolMaxTransactions) :
    ∃ txCollateral, pool.chargeFees params charging = some txCollateral := by
  obtain ⟨tx, htx⟩ := hoffence
  have hmem := mem_vecOffendersCollaterals.mpr htx
  rw [chargeFees]
  cases hlist : pool.vecOffendersCollaterals with
  | nil =>
    rw [hlist] at hmem
    exact absurd hmem List.not_mem_nil
  | cons first rest =>
    rw [hlist] at hlt
    refine ⟨first, ?_⟩
    rw [if_neg (by decide), if_neg (by simp), if_neg (fun h => absurd h.2 (by decide)),
      if_neg (by omega)]
    rfl

variable (params pool) in
/-- **When offenders, and only these, can be charged**: where some behaved and some did not,
there are fewer offences than participants. -/
theorem offenders_charged_iff : pool.OffendersCharged params ↔
    (pool.SomeoneBehaved → (∃ txCollateral, pool.Offends txCollateral) →
      pool.vecOffendersCollaterals.length < params.nPoolMaxTransactions) := by
  constructor
  · rintro ⟨-, hpossible⟩ hbehaved hoffence
    obtain ⟨draws, tx, htx, -⟩ := hpossible hbehaved hoffence
    exact (chargeFees_eq_some htx).2
  · intro h
    have honly : ∀ draws tx, pool.chargeFees params draws = some tx → pool.Offends tx :=
      fun draws tx htx => mem_vecOffendersCollaterals.mp (chargeFees_eq_some htx).1
    refine ⟨honly, fun hbehaved hoffence => ?_⟩
    obtain ⟨tx, htx⟩ := chargeFees_charging hoffence (h hbehaved hoffence)
    exact ⟨charging, tx, htx, honly charging tx htx⟩

/-- An entry with some inputs, all signed or none. -/
def entryWith (k n : ℕ) (fHasSig : Bool) : CDarkSendEntry :=
  ⟨(List.range n).map fun i => ⟨⟨⟨21, 10 * k + i⟩, [], 4294967295⟩, [], fHasSig⟩, [],
    collateralOfUser k⟩

/-- Two users have signed their inputs, the third has signed none of three. -/
def signingPool : CDarksendPool :=
  { init 0 with
    nState := POOL_STATE_SIGNING
    nSessionID := 1
    vecSessionCollaterals := [collateralOfUser 0, collateralOfUser 1, collateralOfUser 2]
    vecEntries := [entryWith 0 1 true, entryWith 1 1 true, entryWith 2 3 false] }

/-- **The lone offender is never charged.** -/
theorem lone_offender_excused : signingPool.SomeoneBehaved ∧
    signingPool.Offends (collateralOfUser 2) ∧
    (∀ draws, signingPool.chargeFees mixParams draws = none) ∧
    ¬ signingPool.OffendersCharged mixParams := by
  have hbehaved : signingPool.SomeoneBehaved :=
    .inr ⟨rfl, entryWith 0 1 true, by decide, by decide⟩
  have hoffends : signingPool.Offends (collateralOfUser 2) :=
    .inr ⟨rfl, entryWith 2 3 false, by decide, rfl, by decide⟩
  have hnone : ∀ draws, signingPool.chargeFees mixParams draws = none := by
    intro draws
    cases hcharge : signingPool.chargeFees mixParams draws with
    | none => rfl
    | some tx => exact absurd (chargeFees_eq_some hcharge).2 (by decide)
  refine ⟨hbehaved, hoffends, hnone, fun h => ?_⟩
  obtain ⟨draws, tx, htx, -⟩ := h.possible hbehaved ⟨_, hoffends⟩
  exact absurd ((hnone draws).symm.trans htx) (by simp)

end CDarksendPool

end Stonecoin
