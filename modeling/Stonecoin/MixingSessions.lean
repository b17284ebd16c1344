/-
One session of mixing has one set of denominations, in every run of a masternode.

The pool never compares an entry with the denominations of its session, nor its collateral with
those of the session; and it takes negative codes.

  * `sessions_agree`: every run of events that match the session.
-/
import Stonecoin.MixingPool
import Stonecoin.Runs
import Mathlib.Algebra.BigOperators.Ring.Finset
import Mathlib.Algebra.Order.BigOperators.Group.Finset

namespace Stonecoin

open PoolState PoolMessage

def IsBitCode (nDenom : ℤ) : Prop :=
  ∃ S : Finset ℕ, S.Nonempty ∧ S ⊆ Finset.range vecPrivateSendDenominations.length ∧
    nDenom = ∑ i ∈ S, 2 ^ i

namespace CDarksendPool

variable {params : MixParams} {env : MixEnv} {pool pool' pool'' : CDarksendPool}

/-- **One session, one set of denominations.** -/
structure SessionOk (params : MixParams) (pool : CDarksendPool) : Prop where
  denom : IsBitCode pool.nSessionDenom
  entries : ∀ entry ∈ pool.vecEntries, getDenominations entry.vecTxDSOut = pool.nSessionDenom
  count : pool.vecEntries.length ≤ params.nPoolMaxTransactions
  outpoints : (pool.inputs.map fun txdsin => txdsin.prevout).Nodup
  collateral : ∀ entry ∈ pool.vecEntries, entry.txCollateral ∈ pool.vecSessionCollaterals

/-- A message matches the session.  A session that is created has a code that is not negative;
the first entry has the denominations of the session; each entry has a collateral that came
with DSACCEPT. -/
def Matches (params : MixParams) (pool : CDarksendPool) (e : MixEnv × MixEvent) : Prop :=
  match e.2 with
  | .dsAccept nDenom txCollateral => pool.nSessionID = 0 →
      denomAndCollateralError params e.1 nDenom txCollateral = none → 0 ≤ nDenom
  | .dsVin entry => pool.dsVinError params e.1 entry = none →
      pool.addEntryError params e.1 entry = none →
      (pool.vecEntries = [] → getDenominations entry.vecTxDSOut = pool.nSessionDenom) ∧
        entry.txCollateral ∈ pool.vecSessionCollaterals
  | _ => True

end CDarksendPool

/-! ### Codes -/

theorem isBitCode_of_lt : ∀ n < 16, n ≠ 0 → IsBitCode (n : ℕ) := by
  have hall : ∀ n < 16, n ≠ 0 → ((Finset.range 4).filter fun i => n.testBit i).Nonempty ∧
      n = ∑ i ∈ (Finset.range 4).filter fun i => n.testBit i, 2 ^ i := by decide
  intro n hlt hne
  obtain ⟨hnonempty, hsum⟩ := hall n hlt hne
  refine ⟨_, hnonempty, Finset.filter_subset _ _, ?_⟩
  calc (n : ℤ) = ((∑ i ∈ (Finset.range 4).filter fun i => n.testBit i, 2 ^ i : ℕ) : ℤ) :=
        congrArg Nat.cast hsum
    _ = _ := by push_cast; rfl

variable {nDenom : ℤ}

theorem isBitCode_of_bits {vecBits : List ℕ}
    (h : getDenominationsBits nDenom = some vecBits) (hnonneg : 0 ≤ nDenom) :
    IsBitCode nDenom := by
  obtain ⟨n, rfl⟩ := Int.eq_ofNat_of_zero_le hnonneg
  rw [getDenominationsBits] at h
  dsimp only at h
  split_ifs at h with hlarge hempty
  apply isBitCode_of_lt
  · have hsmall : ¬ ((16 : ℤ) ≤ n) := hlarge
    omega
  · rintro rfl
    exact absurd rfl hempty

/-! ### What an event does to a session -/

def CDarkSendEntry.sent (entry : CDarkSendEntry) : List COutPoint × List CTxOut × CTransaction :=
  (entry.vecTxDSIn.map fun txdsin => txdsin.prevout, entry.vecTxDSOut, entry.txCollateral)

namespace CDarksendPool

variable {params : MixParams} {env : MixEnv} {pool pool' pool'' : CDarksendPool}

structure SameSession (pool pool' : CDarksendPool) : Prop where
  nSessionID : pool'.nSessionID = pool.nSessionID
  nSessionDenom : pool'.nSessionDenom = pool.nSessionDenom
  vecSessionCollaterals : pool'.vecSessionCollaterals = pool.vecSessionCollaterals
  sent : pool'.vecEntries.map CDarkSendEntry.sent = pool.vecEntries.map CDarkSendEntry.sent

namespace SameSession

theorem refl (pool : CDarksendPool) : SameSession pool pool := ⟨rfl, rfl, rfl, rfl⟩

theorem trans (h : SameSession pool pool') (h' : SameSession pool' pool'') :
    SameSession pool pool'' :=
  ⟨h'.nSessionID.trans h.nSessionID, h'.nSessionDenom.trans h.nSessionDenom,
    h'.vecSessionCollaterals.trans h.vecSessionCollaterals, h'.sent.trans h.sent⟩

theorem forall_entries (h : SameSession pool pool') (p : List CTxOut → CTransaction → Prop) :
    (∀ entry ∈ pool'.vecEntries, p entry.vecTxDSOut entry.txCollateral) ↔
      ∀ entry ∈ pool.vecEntries, p entry.vecTxDSOut entry.txCollateral := by
  have hall : ∀ vecEntries : List CDarkSendEntry,
      (∀ entry ∈ vecEntries, p entry.vecTxDSOut entry.txCollateral) ↔
        ∀ s ∈ vecEntries.map CDarkSendEntry.sent, p s.2.1 s.2.2 := by
    intro vecEntries
    rw [List.forall_mem_map]
    rfl
  rw [hall, hall, h.sent]

theorem length_eq (h : SameSession pool pool') :
    pool'.vecEntries.length = pool.vecEntries.length := by
  simpa using congrArg List.length h.sent

theorem inputs_eq (h : SameSession pool pool') :
    (pool'.inputs.map fun txdsin => txdsin.prevout) =
      pool.inputs.map fun txdsin => txdsin.prevout := by
  have hall : ∀ vecEntries : List CDarkSendEntry,
      ((vecEntries.flatMap CDarkSendEntry.vecTxDSIn).map fun txdsin => txdsin.prevout) =
        (vecEntries.map CDarkSendEntry.sent).flatMap Prod.fst := by
    intro vecEntries
    rw [List.map_flatMap, List.flatMap_map]
    rfl
  rw [inputs, inputs, hall, hall, h.sent]

theorem sessionOk (h : SameSession pool pool') (hok : pool.SessionOk params) :
    pool'.SessionOk params where
  denom := h.nSessionDenom ▸ hok.denom
  entries := by
    rw [h.nSessionDenom]
    exact (h.forall_entries fun outs _ => getDenominations outs = pool.nSessionDenom).mpr
      hok.entries
  count := h.length_eq ▸ hok.count
  outpoints := h.inputs_eq ▸ hok.outpoints
  collateral := by
    rw [h.vecSessionCollaterals]
    exact (h.forall_entries fun _ tx => tx ∈ pool.vecSessionCollaterals).mpr hok.collateral

end SameSession

end CDarksendPool

/-! ### Signatures do not change a session -/

namespace CDarkSendEntry

theorem prevouts_addScriptSigLoop {txin : CTxIn} : ∀ {vecTxDSIn vecTxDSIn' : List CTxDSIn},
    addScriptSigLoop txin vecTxDSIn = some vecTxDSIn' →
      (vecTxDSIn'.map fun txdsin => txdsin.prevout) = vecTxDSIn.map fun txdsin => txdsin.prevout
  | [], _, h => absurd h (by simp [addScriptSigLoop])
  | txdsin :: vecTxDSIn, vecTxDSIn', h => by
    rw [addScriptSigLoop] at h
    split_ifs at h
    · obtain rfl := Option.some.inj h
      rfl
    · obtain ⟨rest, hrest, rfl⟩ := Option.map_eq_some_iff.mp h
      rw [List.map_cons, List.map_cons, prevouts_addScriptSigLoop hrest]

theorem sent_addScriptSig {txin : CTxIn} {entry entry' : CDarkSendEntry}
    (h : entry.addScriptSig txin = some entry') : entry'.sent = entry.sent := by
  obtain ⟨vecTxDSIn, hloop, rfl⟩ := Option.map_eq_some_iff.mp h
  simp [sent, prevouts_addScriptSigLoop hloop]

theorem sent_addToEntries {txin : CTxIn} : ∀ {vecEntries vecEntries' : List CDarkSendEntry},
    addToEntries txin vecEntries = some vecEntries' →
      vecEntries'.map sent = vecEntries.map sent
  | [], _, h => absurd h (by simp [addToEntries])
  | entry :: vecEntries, vecEntries', h => by
    rw [addToEntries] at h
    cases hadd : entry.addScriptSig txin with
    | some entry' =>
      rw [hadd] at h
      obtain rfl := Option.some.inj h
      rw [List.map_cons, List.map_cons, sent_addScriptSig hadd]
    | none =>
      rw [hadd] at h
      obtain ⟨rest, hrest, rfl⟩ := Option.map_eq_some_iff.mp h
      rw [List.map_cons, List.map_cons, sent_addToEntries hrest]

end CDarkSendEntry

namespace CDarksendPool

variable {params : MixParams} {env : MixEnv} {pool pool' pool'' : CDarksendPool}

variable (params pool) in
theorem sameSession_addScriptSig (txin : CTxIn) :
    SameSession pool (pool.addScriptSig params txin).1 := by
  rw [addScriptSig]
  split_ifs
  · exact .refl pool
  · exact .refl pool
  · cases hadd : CDarkSendEntry.addToEntries txin pool.vecEntries with
    | none => exact ⟨rfl, rfl, rfl, rfl⟩
    | some vecEntries => exact ⟨rfl, rfl, rfl, CDarkSendEntry.sent_addToEntries hadd⟩

variable (params) in
theorem sameSession_addScriptSigs : ∀ (vecTxIn : List CTxIn) (pool : CDarksendPool),
    SameSession pool (pool.addScriptSigs params vecTxIn).1
  | [], pool => .refl pool
  | txin :: vecTxIn, pool => by
    have hfirst := sameSession_addScriptSig params pool txin
    rw [addScriptSigs]
    split_ifs
    · exact hfirst.trans (sameSession_addScriptSigs vecTxIn _)
    · exact hfirst

/-- The session stays, or is over. -/
def Continues (pool pool' : CDarksendPool) : Prop :=
  SameSession pool pool' ∨ ∃ pool₁ t, pool' = setNull pool₁ t

theorem Continues.of_same (h : Continues pool' pool'') (hsame : SameSession pool pool') :
    Continues pool pool'' :=
  h.imp_left hsame.trans

theorem continues_checkPool : Continues pool (pool.checkPool params env) := by
  rw [checkPool]
  split_ifs
  · exact .inl ⟨rfl, rfl, rfl, rfl⟩
  · exact .inr ⟨pool, _, rfl⟩
  · exact .inr ⟨pool, _, rfl⟩
  · exact .inl (.refl pool)

/-! ### One event -/

/-- What DSVIN has found out about an entry. -/
structure Checked (params : MixParams) (pool : CDarksendPool) (entry : SentEntry) : Prop where
  ready : params.nPoolMaxTransactions ≤ pool.vecSessionCollaterals.length
  room : pool.vecEntries.length < params.nPoolMaxTransactions
  compatible : ∀ other ∈ pool.vecEntries,
    getDenominations entry.vecTxDSOut = getDenominations other.vecTxDSOut
  nodup : (entry.vecTxDSIn.map CTxIn.prevout).Nodup
  fresh : ∀ txin ∈ entry.vecTxDSIn, ∀ txdsin ∈ pool.inputs, txdsin.prevout ≠ txin.prevout

variable {entry : SentEntry}

theorem checked_of_errors (hvin : pool.dsVinError params env entry = none)
    (hadd : pool.addEntryError params env entry = none) : pool.Checked params entry := by
  rw [dsVinError] at hvin
  split_ifs at hvin with hversion hready hcompatible
  rw [addEntryError] at hadd
  split_ifs at hadd with hnull hcollateral hfull hhave
  rw [Bool.not_eq_true', Bool.not_eq_false] at hready hcompatible
  refine ⟨of_decide_eq_true hready, Nat.lt_of_not_le hfull, ?_, ?_, ?_⟩
  · rw [isOutputsCompatibleWithSessionDenom] at hcompatible
    split_ifs at hcompatible
    exact fun other hother => of_decide_eq_true (List.all_eq_true.mp hcompatible other hother)
  · -- `CheckTransaction` has found no outpoint twice
    rw [entryError] at hvin
    cases houtput : outputError params entry.vecTxDSOut with
    | some nMessageID =>
      rw [houtput] at hvin
      exact absurd hvin (by simp)
    | none =>
      simp only [houtput] at hvin
      split_ifs at hvin with hmissing hmaximum hfees haccept
      rw [Bool.not_eq_true', Bool.not_eq_false, MixEnv.acceptToMemoryPool] at haccept
      cases hcheck : checkTransaction (CMutableTransaction.toTransaction params
          { CMutableTransaction.empty with vin := entry.vecTxDSIn, vout := entry.vecTxDSOut }) with
      | error r =>
        rw [hcheck] at haccept
        exact absurd haccept (by simp)
      | ok u => exact (checkTransaction_ok_iff.mp hcheck).inputs_nodup
  · intro txin htxin txdsin htxdsin heq
    apply hhave
    rw [List.any_eq_true]
    exact ⟨txin, htxin, List.any_eq_true.mpr ⟨txdsin, htxdsin, decide_eq_true heq⟩⟩

/-- What an event does: it joins the session, adds an entry, or does neither. -/
inductive SessionStep (params : MixParams) (pool : CDarksendPool) :
    MixEnv × MixEvent → CDarksendPool → Prop
  | continues {e : MixEnv × MixEvent} {pool' : CDarksendPool} (h : Continues pool pool') :
      SessionStep params pool e pool'
  | create {env : MixEnv} {nDenom : ℤ} {txCollateral : CTransaction} {pool' : CDarksendPool}
      (h : pool.createNewSession params env nDenom txCollateral = .ok pool') :
      SessionStep params pool (env, .dsAccept nDenom txCollateral) pool'
  | join {env : MixEnv} {nDenom : ℤ} {txCollateral : CTransaction} {pool' : CDarksendPool}
      (h : pool.addUserToExistingSession params env nDenom txCollateral = .ok pool') :
      SessionStep params pool (env, .dsAccept nDenom txCollateral) pool'
  | push {env : MixEnv} {entry : SentEntry} {pool' : CDarksendPool}
      (hvin : pool.dsVinError params env entry = none)
      (hadd : pool.addEntryError params env entry = none)
      (h : Continues (pool.pushEntry env entry) pool') :
      SessionStep params pool (env, .dsVin entry) pool'

variable {txCollateral : CTransaction}

theorem createNewSession_eq_ok
    (h : pool.createNewSession params env nDenom txCollateral = .ok pool') :
    pool.nSessionID = 0 ∧ pool.nState = POOL_STATE_IDLE ∧
      denomAndCollateralError params env nDenom txCollateral = none ∧
      pool' = { pool with
        nSessionID := env.getRandInt + 1
        nSessionDenom := nDenom
        nState := POOL_STATE_QUEUE
        nTimeLastSuccessfulStep := env.getTimeMillis
        vecSessionCollaterals := pool.vecSessionCollaterals ++ [txCollateral] } := by
  rw [createNewSession] at h
  cases herror : denomAndCollateralError params env nDenom txCollateral with
  | some nMessageID =>
    rw [herror] at h
    split_ifs at h
  | none =>
    rw [herror] at h
    dsimp only at h
    split_ifs at h with hid hidle
    exact ⟨not_not.mp hid, not_not.mp hidle, rfl, (Except.ok.inj h).symm⟩

theorem addUserToExistingSession_eq_ok
    (h : pool.addUserToExistingSession params env nDenom txCollateral = .ok pool') :
    pool.nSessionID ≠ 0 ∧ pool.nState = POOL_STATE_QUEUE ∧
      pool' = { pool with
        nTimeLastSuccessfulStep := env.getTimeMillis
        vecSessionCollaterals := pool.vecSessionCollaterals ++ [txCollateral] } := by
  rw [addUserToExistingSession] at h
  cases herror : denomAndCollateralError params env nDenom txCollateral with
  | some nMessageID =>
    rw [herror] at h
    split_ifs at h
  | none =>
    rw [herror] at h
    dsimp only at h
    split_ifs at h with hno hqueue
    exact ⟨(not_or.mp hno).1, not_not.mp hqueue, (Except.ok.inj h).symm⟩

variable (params env pool) in
theorem processDsAccept_cases (nDenom : ℤ) (txCollateral : CTransaction) :
    (pool.processDsAccept params env nDenom txCollateral).1 = pool ∨
    pool.createNewSession params env nDenom txCollateral =
      .ok (pool.processDsAccept params env nDenom txCollateral).1 ∨
    pool.addUserToExistingSession params env nDenom txCollateral =
      .ok (pool.processDsAccept params env nDenom txCollateral).1 := by
  rw [processDsAccept]
  by_cases hversion : env.nVersion < MIN_PRIVATESEND_PEER_PROTO_VERSION
  · rw [if_pos hversion]
    exact .inl rfl
  by_cases hready : pool.isSessionReady params = true
  · rw [if_neg hversion, if_pos hready]
    exact .inl rfl
  rw [if_neg hversion, if_neg hready]
  cases env.pmn with
  | false => exact .inl rfl
  | true =>
    cases pool.vecSessionCollaterals.isEmpty && env.lastDsqTooRecent with
    | true => exact .inl rfl
    | false =>
      by_cases hid : pool.nSessionID = 0
      · simp only [Bool.not_true, Bool.false_eq_true, if_false, if_pos hid]
        cases hnew : pool.createNewSession params env nDenom txCollateral with
        | ok pool' => exact .inr (.inl rfl)
        | error nMessageID => exact .inl rfl
      · simp only [Bool.not_true, Bool.false_eq_true, if_false, if_neg hid]
        cases hjoin : pool.addUserToExistingSession params env nDenom txCollateral with
        | ok pool' => exact .inr (.inr rfl)
        | error nMessageID => exact .inl rfl

theorem sessionStep_dsVin :
    SessionStep params pool (env, .dsVin entry) (pool.processDsVin params env entry).1 := by
  rw [processDsVin]
  cases hvin : pool.dsVinError params env entry with
  | some nMessageID => exact .continues (.inl (.refl pool))
  | none =>
    cases hadd : pool.addEntryError params env entry with
    | some nMessageID => exact .continues (.inr ⟨pool, _, rfl⟩)
    | none => exact .push hvin hadd continues_checkPool

variable (params) in
theorem sessionStep_step (pool : CDarksendPool) (e : MixEnv × MixEvent) :
    SessionStep params pool e (pool.step params e) := by
  obtain ⟨env, e⟩ := e
  cases e with
  | dsAccept nDenom txCollateral =>
    rw [CDarksendPool.step]
    split_ifs
    · exact .continues (.inl (.refl pool))
    · show SessionStep params pool _ (pool.processDsAccept params env nDenom txCollateral).1
      obtain hsame | hnew | hjoin := processDsAccept_cases params env pool nDenom txCollateral
      · rw [hsame]
        exact .continues (.inl (.refl pool))
      · exact .create hnew
      · exact .join hjoin
  | dsVin entry =>
    rw [CDarksendPool.step]
    split_ifs
    · exact .continues (.inl (.refl pool))
    · exact sessionStep_dsVin
  | dsSignFinalTx vecTxIn =>
    rw [CDarksendPool.step]
    split_ifs
    · exact .continues (.inl (.refl pool))
    · show SessionStep params pool _ (pool.processDsSignFinalTx params env vecTxIn)
      have hsigs := sameSession_addScriptSigs params vecTxIn pool
      apply SessionStep.continues
      simp only [processDsSignFinalTx]
      split_ifs
      · exact .inl (.refl pool)
      · exact continues_checkPool.of_same hsigs
      · exact .inl hsigs
  | checkTimeout =>
    apply SessionStep.continues
    show Continues pool (pool.checkTimeout env)
    simp only [checkTimeout]
    split_ifs
    · exact .inr ⟨pool, _, rfl⟩
    · exact .inl (.refl pool)
    · exact .inr ⟨pool, _, rfl⟩
    · exact .inl (.refl pool)
  | checkForCompleteQueue =>
    apply SessionStep.continues
    show Continues pool (pool.checkForCompleteQueue params)
    rw [checkForCompleteQueue]
    split_ifs
    · exact .inl ⟨rfl, rfl, rfl, rfl⟩
    · exact .inl (.refl pool)
  | checkPool => exact .continues continues_checkPool
  | resetPool => exact .continues (.inr ⟨pool, _, rfl⟩)

/-! ### The entries -/

/-- There is room for the entries, and no outpoint occurs twice. -/
structure EntriesOk (params : MixParams) (pool : CDarksendPool) : Prop where
  count : pool.vecEntries.length ≤ params.nPoolMaxTransactions
  outpoints : (pool.inputs.map fun txdsin => txdsin.prevout).Nodup

theorem entriesOk_of_nil (h : pool.vecEntries = []) : pool.EntriesOk params where
  count := by simp [h]
  outpoints := by simp [inputs, h]

theorem EntriesOk.same (h : pool.EntriesOk params) (hsame : SameSession pool pool') :
    pool'.EntriesOk params :=
  ⟨hsame.length_eq ▸ h.count, hsame.inputs_eq ▸ h.outpoints⟩

theorem EntriesOk.continues (h : pool.EntriesOk params) (hcont : Continues pool pool') :
    pool'.EntriesOk params := by
  obtain hsame | ⟨pool₁, t, rfl⟩ := hcont
  · exact h.same hsame
  · exact entriesOk_of_nil rfl

theorem EntriesOk.pushEntry (h : pool.EntriesOk params)
    (hchecked : pool.Checked params entry) : (pool.pushEntry env entry).EntriesOk params where
  count := by
    show (pool.vecEntries ++ [entry.read]).length ≤ _
    rw [List.length_append, List.length_singleton]
    exact hchecked.room
  outpoints := by
    have hread : (entry.read.vecTxDSIn.map fun txdsin => txdsin.prevout) =
        entry.vecTxDSIn.map CTxIn.prevout := by
      rw [SentEntry.read, List.map_map]
      rfl
    show (((pool.vecEntries ++ [entry.read]).flatMap CDarkSendEntry.vecTxDSIn).map _).Nodup
    rw [List.flatMap_append, List.flatMap_singleton, List.map_append, hread, List.nodup_append]
    refine ⟨h.outpoints, hchecked.nodup, ?_⟩
    intro out hold out' hnew heq
    obtain ⟨txdsin, htxdsin, rfl⟩ := List.mem_map.mp hold
    obtain ⟨txin, htxin, rfl⟩ := List.mem_map.mp hnew
    exact hchecked.fresh txin htxin txdsin htxdsin heq

theorem EntriesOk.of_vecEntries (h : pool.EntriesOk params)
    (heq : pool'.vecEntries = pool.vecEntries) : pool'.EntriesOk params := by
  have hinputs : pool'.inputs = pool.inputs := by rw [inputs, inputs, heq]
  exact ⟨heq ▸ h.count, hinputs ▸ h.outpoints⟩

theorem EntriesOk.step (h : pool.EntriesOk params) (e : MixEnv × MixEvent) :
    (pool.step params e).EntriesOk params := by
  cases sessionStep_step params pool e with
  | continues hcont => exact h.continues hcont
  | create hnew =>
    obtain ⟨-, -, -, heq⟩ := createNewSession_eq_ok hnew
    exact h.of_vecEntries (by rw [heq])
  | join hjoin =>
    obtain ⟨-, -, heq⟩ := addUserToExistingSession_eq_ok hjoin
    exact h.of_vecEntries (by rw [heq])
  | push hvin hadd hcont => exact (h.pushEntry (checked_of_errors hvin hadd)).continues hcont

/-! ### The invariant -/

/-- A pool without a session is empty, and one with a session has a session that is well. -/
structure Inv (params : MixParams) (pool : CDarksendPool) : Prop where
  idle : pool.nSessionID = 0 → pool.vecEntries = [] ∧ pool.vecSessionCollaterals = []
  session : pool.nSessionID ≠ 0 → pool.SessionOk params

theorem inv_setNull (t : ℤ) : (pool.setNull t).Inv params where
  idle := fun _ => ⟨rfl, rfl⟩
  session := fun h => absurd rfl h

theorem inv_init (t : ℤ) : (init t).Inv params where
  idle := fun _ => ⟨rfl, rfl⟩
  session := fun h => absurd rfl h

theorem Inv.same (h : pool.Inv params) (hsame : SameSession pool pool') : pool'.Inv params where
  idle := by
    intro hid
    obtain ⟨hentries, hcollaterals⟩ := h.idle (hsame.nSessionID ▸ hid)
    have hlength := hsame.length_eq
    rw [hentries, List.length_nil, List.length_eq_zero_iff] at hlength
    exact ⟨hlength, hsame.vecSessionCollaterals.trans hcollaterals⟩
  session := fun hid => hsame.sessionOk (h.session (hsame.nSessionID ▸ hid))

theorem Inv.continues (h : pool.Inv params) (hcont : Continues pool pool') : pool'.Inv params := by
  obtain hsame | ⟨pool₁, t, rfl⟩ := hcont
  · exact h.same hsame
  · exact inv_setNull t

theorem Inv.createNewSession (h : pool.Inv params)
    (hmatch : pool.nSessionID = 0 →
      denomAndCollateralError params env nDenom txCollateral = none → 0 ≤ nDenom)
    (hnew : pool.createNewSession params env nDenom txCollateral = .ok pool') :
    pool'.Inv params := by
  obtain ⟨hid, -, herror, rfl⟩ := createNewSession_eq_ok hnew
  obtain ⟨hentries, -⟩ := h.idle hid
  have hbits : ∃ vecBits, getDenominationsBits nDenom = some vecBits := by
    have hnone := herror
    rw [denomAndCollateralError] at hnone
    split_ifs at hnone with hno
    rw [Option.isNone_iff_eq_none] at hno
    exact Option.ne_none_iff_exists'.mp hno
  obtain ⟨vecBits, hbits⟩ := hbits
  refine ⟨fun hzero => ?_, fun _ => ⟨isBitCode_of_bits hbits (hmatch hid herror), ?_, ?_, ?_, ?_⟩⟩
  · have hpos : ((env.getRandInt : ℤ) + 1) = 0 := hzero
    omega
  · simp [hentries]
  · simp [hentries]
  · simp [inputs, hentries]
  · simp [hentries]

theorem Inv.addUserToExistingSession (h : pool.Inv params)
    (hjoin : pool.addUserToExistingSession params env nDenom txCollateral = .ok pool') :
    pool'.Inv params := by
  obtain ⟨hid, -, rfl⟩ := addUserToExistingSession_eq_ok hjoin
  have hok := h.session hid
  refine ⟨fun hzero => absurd hzero hid, fun _ => ⟨hok.denom, hok.entries, hok.count,
    hok.outpoints, fun entry hentry => ?_⟩⟩
  exact List.mem_append_left _ (hok.collateral entry hentry)

theorem Inv.pushEntry (h : pool.Inv params) (hchecked : pool.Checked params entry)
    (hfirst : pool.vecEntries = [] → getDenominations entry.vecTxDSOut = pool.nSessionDenom)
    (hcollateral : entry.txCollateral ∈ pool.vecSessionCollaterals) :
    (pool.pushEntry env entry).Inv params := by
  have hid : pool.nSessionID ≠ 0 := by
    intro hzero
    rw [(h.idle hzero).2] at hcollateral
    exact absurd hcollateral List.not_mem_nil
  have hok := h.session hid
  have hentries : (pool.pushEntry env entry).EntriesOk params :=
    EntriesOk.pushEntry ⟨hok.count, hok.outpoints⟩ hchecked
  refine ⟨fun hzero => absurd hzero hid, fun _ => ⟨hok.denom, ?_, ?_, ?_, ?_⟩⟩
  · intro other hother
    rcases List.mem_append.mp hother with hother | hother
    · exact hok.entries other hother
    · obtain rfl := List.mem_singleton.mp hother
      show getDenominations entry.vecTxDSOut = pool.nSessionDenom
      cases hentries : pool.vecEntries with
      | nil => exact hfirst hentries
      | cons other others =>
        -- the entries before it have the denominations of the session
        have hmem : other ∈ pool.vecEntries := hentries ▸ List.mem_cons_self
        rw [hchecked.compatible other hmem, hok.entries other hmem]
  · exact hentries.count
  · exact hentries.outpoints
  · intro other hother
    rcases List.mem_append.mp hother with hother | hother
    · exact hok.collateral other hother
    · obtain rfl := List.mem_singleton.mp hother
      exact hcollateral

/-! ### Runs -/

theorem Inv.step (h : pool.Inv params) {e : MixEnv × MixEvent} (hmatch : pool.Matches params e) :
    (pool.step params e).Inv params := by
  cases sessionStep_step params pool e with
  | continues hcont => exact h.continues hcont
  | create hnew => exact h.createNewSession hmatch hnew
  | join hjoin => exact h.addUserToExistingSession hjoin
  | push hvin hadd hcont =>
    obtain ⟨hfirst, hcollateral⟩ := hmatch hvin hadd
    exact (h.pushEntry (checked_of_errors hvin hadd) hfirst hcollateral).continues hcont

/-- **One session, one set of denominations**, in every run of messages that match their
sessions. -/
theorem sessions_agree {t : ℤ} {es : List (MixEnv × MixEvent)}
    (h : Runs.Admits (Matches params) (CDarksendPool.step params) (init t) es)
    (hid : (es.foldl (CDarksendPool.step params) (init t)).nSessionID ≠ 0) :
    (es.foldl (CDarksendPool.step params) (init t)).SessionOk params := by
  have hrun := (Runs.Run.of_admits h).invariant (I := fun pool => pool.Inv params)
    (fun pool e pool' hinv ht => ht.2 ▸ hinv.step ht.1) (inv_init t)
  exact hrun.session hid

def keyScript (key : UInt8) : CScript :=
  [OP_DUP, OP_HASH160, 20] ++ List.replicate 20 key ++ [OP_EQUALVERIFY, OP_CHECKSIG]

/-- Three users make a session. -/
def mixParams : MixParams where
  nPoolMaxTransactions := 3
  getHash := fun _ => 0
  isNormalPaymentScript := fun s => s.length = 25
  evalScript := fun stack _ _ => some stack

/-- Transaction 20 has the coins of the collaterals, transaction 21 denominated ones. -/
def mixEnv : MixEnv where
  fLiteMode := false
  isBlockchainSynced := true
  nVersion := 70206
  pmn := true
  lastDsqTooRecent := false
  getTransaction := fun hash =>
    if hash = 20 then some ⟨20, 1, [], List.replicate 4 (.of 200000 (keyScript 1)), 0⟩
    else if hash = 21 then some ⟨21, 1, [], List.replicate 4 (.of 1000010 (keyScript 2)), 0⟩
    else none
  acceptable := fun _ => true
  getRandInt := 7
  getTimeMillis := 1000

def collateralOfUser (k : ℕ) : CTransaction :=
  ⟨.ofNat 256 (30 + k), 1, [⟨⟨20, k⟩, [], 4294967295⟩], [.of 100000 (keyScript 3)], 0⟩

/-- A user with one coin of the lowest denomination. -/
def entryOfUser (k : ℕ) : SentEntry where
  vecTxDSIn := [⟨⟨21, k⟩, [], 4294967295⟩]
  vecTxDSOut := [.of 1000010 (keyScript 4)]
  txCollateral := collateralOfUser k

/-- Three users join, the first one with a code; then an entry comes. -/
def sessionRun (nDenom : ℤ) (k : ℕ) : List (MixEnv × MixEvent) :=
  [(mixEnv, .dsAccept nDenom (collateralOfUser 0)), (mixEnv, .dsAccept nDenom (collateralOfUser 1)),
    (mixEnv, .dsAccept nDenom (collateralOfUser 2)), (mixEnv, .checkForCompleteQueue),
    (mixEnv, .dsVin (entryOfUser k))]

/-- A session with the code 8, and an entry of one of its users. -/
theorem sessions_agree_one :
    ((sessionRun 8 0).foldl (CDarksendPool.step mixParams) (init 0)).SessionOk mixParams := by
  have hnonneg : (0 : ℤ) ≤ 8 := by decide
  apply sessions_agree
  · refine ⟨fun _ _ => hnonneg, fun _ _ => hnonneg, fun _ _ => hnonneg, trivial,
      fun _ _ => ⟨fun _ => ?_, ?_⟩, trivial⟩
    · decide +kernel
    · decide +kernel
  · decide +kernel

/-- A session with the code -1, and an entry that nothing connects with it. -/
theorem session_of_negative_code :
    ((sessionRun (-1) 3).foldl (CDarksendPool.step mixParams) (init 0)).nSessionID ≠ 0 ∧
    ¬ IsBitCode ((sessionRun (-1) 3).foldl (CDarksendPool.step mixParams) (init 0)).nSessionDenom ∧
    ∃ entry ∈ ((sessionRun (-1) 3).foldl (CDarksendPool.step mixParams) (init 0)).vecEntries,
      getDenominations entry.vecTxDSOut ≠
        ((sessionRun (-1) 3).foldl (CDarksendPool.step mixParams) (init 0)).nSessionDenom ∧
      entry.txCollateral ∉
        ((sessionRun (-1) 3).foldl (CDarksendPool.step mixParams) (init 0)).vecSessionCollaterals := by
  have hdenom : ((sessionRun (-1) 3).foldl (CDarksendPool.step mixParams) (init 0)).nSessionDenom =
      -1 := by decide +kernel
  refine ⟨by decide +kernel, ?_, by decide +kernel⟩
  rw [hdenom]
  rintro ⟨S, -, -, hsum⟩
  have hnonneg : (0 : ℤ) ≤ ∑ i ∈ S, 2 ^ i :=
    Finset.sum_nonneg fun i _ => pow_nonneg (by decide) i
  omega

end CDarksendPool

end Stonecoin
