/-
The signatures that a masternode records for a mixing transaction.

`IsInputScriptSigValid` runs a signature against the empty script: `prevPubKey` is not part of
a message.  So the pool's own check says nothing about the script that is spent, and whether
the signatures are good depends on the senders.

  * `signatures_valid`: every run in which the signatures that are taken are good.
-/
import Stonecoin.MixingSessions

namespace Stonecoin

open PoolState

variable {params : MixParams} {env : MixEnv}

namespace CDarksendPool

/-- **The recorded signatures are valid**: a `scriptSig` that is recorded satisfies the script
that its input spends, in `finalMutableTransaction` at the place of the input; and when all
signatures are there, every input of that transaction is correctly signed. -/
structure SignaturesValid (params : MixParams) (spentScript : COutPoint → CScript)
    (pool : CDarksendPool) : Prop where
  recorded : ∀ txdsin ∈ pool.inputs, txdsin.fHasSig = true →
    ∃ i txin, pool.finalMutableTransaction.vin[i]? = some txin ∧ txin.prevout = txdsin.prevout ∧
      verifyScript params txdsin.scriptSig (spentScript txdsin.prevout)
        (pool.finalMutableTransaction.view i) = true
  complete : pool.isSignaturesComplete = true → ∀ i txin,
    pool.finalMutableTransaction.vin[i]? = some txin →
      verifyScript params txin.scriptSig (spentScript txin.prevout)
        (pool.finalMutableTransaction.view i) = true

/-- The input is the one that a signature is for. -/
def IsFor (txin : CTxIn) (txdsin : CTxIn) : Prop :=
  txdsin.prevout = txin.prevout ∧ txdsin.nSequence = txin.nSequence

/-- A signature that is taken is good: it comes when the final transaction is there, and
satisfies the script that is spent. -/
def Signs (params : MixParams) (spentScript : COutPoint → CScript) (pool : CDarksendPool)
    (txin : CTxIn) : Prop :=
  pool.hasScriptSig txin.scriptSig = false → pool.isInputScriptSigValid params txin = true →
    (∃ txdsin ∈ pool.inputs, IsFor txin txdsin.toCTxIn) →
      pool.nState = POOL_STATE_SIGNING ∧
      ∀ i txin', pool.finalMutableTransaction.vin[i]? = some txin' → IsFor txin txin' →
        verifyScript params txin.scriptSig (spentScript txin.prevout)
          (pool.finalMutableTransaction.view i) = true

/-- All signatures of a message, each when its turn comes. -/
def SignsAll (params : MixParams) (spentScript : COutPoint → CScript) :
    CDarksendPool → List CTxIn → Prop
  | _, [] => True
  | pool, txin :: vecTxIn => pool.Signs params spentScript txin ∧
      ((pool.addScriptSig params txin).2 = true →
        SignsAll params spentScript (pool.addScriptSig params txin).1 vecTxIn)

def SendsGood (params : MixParams) (spentScript : COutPoint → CScript) (pool : CDarksendPool)
    (e : MixEnv × MixEvent) : Prop :=
  match e.2 with
  | .dsSignFinalTx vecTxIn => e.1.fLiteMode = false → e.1.isBlockchainSynced = true →
      MIN_PRIVATESEND_PEER_PROTO_VERSION ≤ e.1.nVersion → pool.SignsAll params spentScript vecTxIn
  | _ => True

end CDarksendPool

/-! ### Recording a signature -/

/-- An input with a signature. -/
def CTxDSIn.signed (txdsin : CTxDSIn) (txin : CTxIn) : CTxDSIn :=
  { txdsin with scriptSig := txin.scriptSig, prevPubKey := [], fHasSig := true }

def CTxIn.key (txin : CTxIn) : COutPoint × ℕ := (txin.prevout, txin.nSequence)

namespace CDarkSendEntry

open CDarksendPool (IsFor)

structure Records (txin : CTxIn) (inputs inputs' : List CTxDSIn) : Prop where
  keys : inputs'.map (fun t => t.toCTxIn.key) = inputs.map fun t => t.toCTxIn.key
  mem : ∀ t' ∈ inputs', t' ∈ inputs ∨ ∃ t ∈ inputs, IsFor txin t.toCTxIn ∧ t' = t.signed txin
  exists_isFor : ∃ t ∈ inputs, IsFor txin t.toCTxIn

namespace Records

variable {txin : CTxIn} {inputs inputs' : List CTxDSIn}

theorem append_right (h : Records txin inputs inputs') (others : List CTxDSIn) :
    Records txin (inputs ++ others) (inputs' ++ others) where
  keys := by rw [List.map_append, List.map_append, h.keys]
  mem := by
    intro t' ht'
    rcases List.mem_append.mp ht' with ht' | ht'
    · rcases h.mem t' ht' with ht | ⟨t, ht, hsigned⟩
      · exact .inl (List.mem_append_left _ ht)
      · exact .inr ⟨t, List.mem_append_left _ ht, hsigned⟩
    · exact .inl (List.mem_append_right _ ht')
  exists_isFor := by
    obtain ⟨t, ht, hfor⟩ := h.exists_isFor
    exact ⟨t, List.mem_append_left _ ht, hfor⟩

theorem append_left (h : Records txin inputs inputs') (others : List CTxDSIn) :
    Records txin (others ++ inputs) (others ++ inputs') where
  keys := by rw [List.map_append, List.map_append, h.keys]
  mem := by
    intro t' ht'
    rcases List.mem_append.mp ht' with ht' | ht'
    · exact .inl (List.mem_append_left _ ht')
    · rcases h.mem t' ht' with ht | ⟨t, ht, hsigned⟩
      · exact .inl (List.mem_append_right _ ht)
      · exact .inr ⟨t, List.mem_append_right _ ht, hsigned⟩
  exists_isFor := by
    obtain ⟨t, ht, hfor⟩ := h.exists_isFor
    exact ⟨t, List.mem_append_right _ ht, hfor⟩

end Records

theorem records_addScriptSigLoop {txin : CTxIn} : ∀ {vecTxDSIn vecTxDSIn' : List CTxDSIn},
    addScriptSigLoop txin vecTxDSIn = some vecTxDSIn' → Records txin vecTxDSIn vecTxDSIn'
  | [], _, h => absurd h (by simp [addScriptSigLoop])
  | txdsin :: vecTxDSIn, vecTxDSIn', h => by
    rw [addScriptSigLoop] at h
    split_ifs at h with hfor
    · obtain rfl := Option.some.inj h
      refine ⟨rfl, fun t' ht' => ?_, txdsin, List.mem_cons_self, hfor⟩
      rcases List.mem_cons.mp ht' with rfl | ht'
      · exact .inr ⟨txdsin, List.mem_cons_self, hfor, rfl⟩
      · exact .inl (List.mem_cons_of_mem _ ht')
    · obtain ⟨rest, hrest, rfl⟩ := Option.map_eq_some_iff.mp h
      exact (records_addScriptSigLoop hrest).append_left [txdsin]

theorem records_addToEntries {txin : CTxIn} : ∀ {vecEntries vecEntries' : List CDarkSendEntry},
    addToEntries txin vecEntries = some vecEntries' →
      Records txin (vecEntries.flatMap vecTxDSIn) (vecEntries'.flatMap vecTxDSIn)
  | [], _, h => absurd h (by simp [addToEntries])
  | entry :: vecEntries, vecEntries', h => by
    rw [addToEntries] at h
    rw [List.flatMap_cons]
    cases hadd : entry.addScriptSig txin with
    | some entry' =>
      rw [hadd] at h
      obtain rfl := Option.some.inj h
      obtain ⟨vecTxDSIn', hloop, rfl⟩ := Option.map_eq_some_iff.mp hadd
      exact (records_addScriptSigLoop hloop).append_right _
    | none =>
      rw [hadd] at h
      obtain ⟨rest, hrest, rfl⟩ := Option.map_eq_some_iff.mp h
      exact (records_addToEntries hrest).append_left _

end CDarkSendEntry

/-! ### The invariant -/

namespace CDarksendPool

variable {spentScript : COutPoint → CScript} {pool pool' : CDarksendPool}

/-- A script that is spent is satisfied wherever the outpoint is in the final transaction. -/
def Satisfies (params : MixParams) (spentScript : COutPoint → CScript) (pool : CDarksendPool)
    (prevout : COutPoint) (scriptSig : CScript) : Prop :=
  ∀ i txin, pool.finalMutableTransaction.vin[i]? = some txin → txin.prevout = prevout →
    verifyScript params scriptSig (spentScript prevout)
      (pool.finalMutableTransaction.view i) = true

/-- What holds of the signatures. -/
structure SigInv (params : MixParams) (spentScript : COutPoint → CScript) (pool : CDarksendPool) :
    Prop where
  quiet : pool.nState ≠ POOL_STATE_SIGNING →
    (∀ txdsin ∈ pool.inputs, txdsin.fHasSig = false) ∧ pool.finalMutableTransaction.vin = []
  full : pool.nState = POOL_STATE_SIGNING → params.nPoolMaxTransactions ≤ pool.vecEntries.length
  keys : pool.nState = POOL_STATE_SIGNING → ∀ key,
    key ∈ pool.finalMutableTransaction.vin.map CTxIn.key ↔
      key ∈ pool.inputs.map fun t => t.toCTxIn.key
  recorded : ∀ txdsin ∈ pool.inputs, txdsin.fHasSig = true →
    pool.Satisfies params spentScript txdsin.prevout txdsin.scriptSig
  placed : ∀ txdsin ∈ pool.inputs, txdsin.fHasSig = true →
    ∀ txin ∈ pool.finalMutableTransaction.vin, txin.prevout = txdsin.prevout →
      pool.Satisfies params spentScript txin.prevout txin.scriptSig

theorem sigInv_of_quiet (hstate : pool.nState ≠ POOL_STATE_SIGNING)
    (hsigs : ∀ txdsin ∈ pool.inputs, txdsin.fHasSig = false)
    (hfinal : pool.finalMutableTransaction.vin = []) : pool.SigInv params spentScript where
  quiet := fun _ => ⟨hsigs, hfinal⟩
  full := fun h => absurd h hstate
  keys := fun h => absurd h hstate
  recorded := fun txdsin hmem hsig => absurd (hsigs txdsin hmem) (by simp [hsig])
  placed := fun txdsin hmem hsig => absurd (hsigs txdsin hmem) (by simp [hsig])

theorem sigInv_setNull (t : ℤ) : (pool.setNull t).SigInv params spentScript :=
  sigInv_of_quiet PoolState.noConfusion (fun _ h => absurd h List.not_mem_nil) rfl

theorem sigInv_init (t : ℤ) : (init t).SigInv params spentScript :=
  sigInv_of_quiet PoolState.noConfusion (fun _ h => absurd h List.not_mem_nil) rfl

theorem SigInv.signaturesValid (h : pool.SigInv params spentScript) :
    pool.SignaturesValid params spentScript where
  recorded := by
    intro txdsin hmem hsig
    have hsigning : pool.nState = POOL_STATE_SIGNING := by
      by_contra hstate
      exact absurd ((h.quiet hstate).1 txdsin hmem) (by simp [hsig])
    have hkey := (h.keys hsigning _).mpr (List.mem_map_of_mem hmem)
    obtain ⟨txin, htxin, heq⟩ := List.mem_map.mp hkey
    obtain ⟨i, hi⟩ := List.mem_iff_getElem?.mp htxin
    have hout : txin.prevout = txdsin.prevout := congrArg Prod.fst heq
    exact ⟨i, txin, hi, hout, h.recorded txdsin hmem hsig i txin hi hout⟩
  complete := by
    intro hcomplete i txin hi
    have htxin := List.mem_of_getElem? hi
    have hsigning : pool.nState = POOL_STATE_SIGNING := by
      by_contra hstate
      rw [(h.quiet hstate).2] at htxin
      exact absurd htxin List.not_mem_nil
    obtain ⟨txdsin, hmem, heq⟩ :=
      List.mem_map.mp ((h.keys hsigning _).mp (List.mem_map_of_mem htxin))
    have hout : txdsin.prevout = txin.prevout := congrArg Prod.fst heq
    exact h.placed txdsin hmem (List.all_eq_true.mp hcomplete txdsin hmem) txin htxin hout.symm i
      txin hi rfl

/-! ### One signature -/

def signedIn (txinNew txin : CTxIn) : CTxIn :=
  if txinNew.prevout = txin.prevout ∧ txin.nSequence = txinNew.nSequence then
    { txin with scriptSig := txinNew.scriptSig }
  else txin

theorem key_signedIn (txinNew txin : CTxIn) : (signedIn txinNew txin).key = txin.key := by
  rw [signedIn]
  split_ifs <;> rfl

theorem vin_signFinal (txin : CTxIn) : (pool.signFinal txin).finalMutableTransaction.vin =
    pool.finalMutableTransaction.vin.map (signedIn txin) := rfl

theorem keys_signFinal (txin : CTxIn) :
    (pool.signFinal txin).finalMutableTransaction.vin.map CTxIn.key =
      pool.finalMutableTransaction.vin.map CTxIn.key := by
  rw [vin_signFinal, List.map_map]
  exact List.map_congr_left fun t _ => key_signedIn txin t

theorem view_signFinal (txin : CTxIn) (i : ℕ) :
    (pool.signFinal txin).finalMutableTransaction.view i = pool.finalMutableTransaction.view i := by
  have hvin : (pool.signFinal txin).finalMutableTransaction.vin.map
      (fun t => (t.prevout, t.nSequence)) =
      pool.finalMutableTransaction.vin.map fun t => (t.prevout, t.nSequence) := keys_signFinal txin
  rw [CMutableTransaction.view, CMutableTransaction.view, hvin]
  rfl

theorem Satisfies.of_signFinal {txin : CTxIn} {prevout : COutPoint} {scriptSig : CScript}
    (h : pool.Satisfies params spentScript prevout scriptSig)
    (hfinal : pool'.finalMutableTransaction = (pool.signFinal txin).finalMutableTransaction) :
    pool'.Satisfies params spentScript prevout scriptSig := by
  intro i t hi hout
  rw [hfinal] at hi ⊢
  rw [vin_signFinal, List.getElem?_map] at hi
  obtain ⟨t₀, hi₀, rfl⟩ := Option.map_eq_some_iff.mp hi
  rw [view_signFinal]
  have hsame : (signedIn txin t₀).prevout = t₀.prevout := congrArg Prod.fst (key_signedIn txin t₀)
  exact h i t₀ hi₀ (hsame.symm.trans hout)

theorem eq_of_prevout (hnodup : (pool.inputs.map fun t => t.prevout).Nodup) {t t' : CTxDSIn}
    (ht : t ∈ pool.inputs) (ht' : t' ∈ pool.inputs) (hout : t.prevout = t'.prevout) : t = t' :=
  List.inj_on_of_nodup_map hnodup ht ht' hout

theorem SigInv.isFor (h : pool.SigInv params spentScript)
    (hnodup : (pool.inputs.map fun t => t.prevout).Nodup)
    (hstate : pool.nState = POOL_STATE_SIGNING) {txin txin' : CTxIn} {t : CTxDSIn}
    (ht : t ∈ pool.inputs) (hfor : IsFor txin t.toCTxIn)
    (htxin' : txin' ∈ pool.finalMutableTransaction.vin) (hout : txin'.prevout = txin.prevout) :
    IsFor txin txin' := by
  obtain ⟨t', ht', hkey⟩ :=
    List.mem_map.mp ((h.keys hstate _).mp (List.mem_map_of_mem htxin'))
  have hout' : t'.prevout = txin'.prevout := congrArg Prod.fst hkey
  have hseq : t'.nSequence = txin'.nSequence := congrArg Prod.snd hkey
  have heq : t = t' := eq_of_prevout hnodup ht ht' (hfor.1.trans (hout.symm.trans hout'.symm))
  exact ⟨hout, hseq.symm.trans (heq ▸ hfor.2)⟩

theorem SigInv.of_records (h : pool.SigInv params spentScript)
    (hnodup : (pool.inputs.map fun t => t.prevout).Nodup)
    (hstate : pool.nState = POOL_STATE_SIGNING) {txin : CTxIn} {t₀ : CTxDSIn}
    (ht₀ : t₀ ∈ pool.inputs) (hfor₀ : IsFor txin t₀.toCTxIn)
    (hgood : pool.Satisfies params spentScript txin.prevout txin.scriptSig)
    (hfinal : pool'.finalMutableTransaction = (pool.signFinal txin).finalMutableTransaction)
    (hstate' : pool'.nState = pool.nState)
    (hlength : pool'.vecEntries.length = pool.vecEntries.length)
    (hkeys : (pool'.inputs.map fun t => t.toCTxIn.key) = pool.inputs.map fun t => t.toCTxIn.key)
    (hmem : ∀ t' ∈ pool'.inputs, t' ∈ pool.inputs ∨
      ∃ t ∈ pool.inputs, IsFor txin t.toCTxIn ∧ t' = t.signed txin) :
    pool'.SigInv params spentScript where
  quiet := fun hquiet => absurd (hstate'.trans hstate) hquiet
  full := fun _ => hlength ▸ h.full hstate
  keys := by
    intro _ key
    rw [hfinal, keys_signFinal, hkeys]
    exact h.keys hstate key
  recorded := by
    intro t' ht' hsig
    rcases hmem t' ht' with ht | ⟨t, ht, hfor, rfl⟩
    · exact (h.recorded t' ht hsig).of_signFinal hfinal
    · have hsigned : pool.Satisfies params spentScript t.prevout txin.scriptSig := hfor.1 ▸ hgood
      exact hsigned.of_signFinal hfinal
  placed := by
    intro t' ht' hsig txin' htxin' hout
    rw [hfinal, vin_signFinal] at htxin'
    obtain ⟨txin₀, htxin₀, rfl⟩ := List.mem_map.mp htxin'
    have hprevout : (signedIn txin txin₀).prevout = txin₀.prevout :=
      congrArg Prod.fst (key_signedIn txin txin₀)
    rw [hprevout] at hout ⊢
    by_cases hat : txin₀.prevout = txin.prevout
    · -- the input that the signature is for
      have hfor := h.isFor hnodup hstate ht₀ hfor₀ htxin₀ hat
      have hscript : (signedIn txin txin₀).scriptSig = txin.scriptSig := by
        rw [signedIn, if_pos ⟨hat.symm, hfor.2⟩]
      rw [hscript, hat]
      exact hgood.of_signFinal hfinal
    · have hunchanged : signedIn txin txin₀ = txin₀ := by
        rw [signedIn, if_neg fun hboth => hat hboth.1.symm]
      rw [hunchanged]
      rcases hmem t' ht' with ht | ⟨t, ht, hfor, rfl⟩
      · exact (h.placed t' ht hsig txin₀ htxin₀ hout).of_signFinal hfinal
      · exact absurd (hout.trans hfor.1) hat

theorem SigInv.signFinal_eq (h : pool.SigInv params spentScript) {txin : CTxIn}
    (hnone : ¬ ∃ t ∈ pool.inputs, IsFor txin t.toCTxIn) : pool.signFinal txin = pool := by
  have hvin : pool.finalMutableTransaction.vin.map (signedIn txin) =
      pool.finalMutableTransaction.vin := by
    by_cases hstate : pool.nState = POOL_STATE_SIGNING
    · refine (List.map_congr_left fun txin' htxin' => ?_).trans (List.map_id _)
      rw [signedIn, if_neg]
      · rfl
      rintro ⟨hout, hseq⟩
      obtain ⟨t, ht, hkey⟩ :=
        List.mem_map.mp ((h.keys hstate _).mp (List.mem_map_of_mem htxin'))
      have hout' : t.prevout = txin'.prevout := congrArg Prod.fst hkey
      have hseq' : t.nSequence = txin'.nSequence := congrArg Prod.snd hkey
      exact hnone ⟨t, ht, hout'.trans hout.symm, hseq'.trans hseq⟩
    · rw [(h.quiet hstate).2]
      rfl
  show ({ pool with finalMutableTransaction := { pool.finalMutableTransaction with
    vin := pool.finalMutableTransaction.vin.map (signedIn txin) } } : CDarksendPool) = pool
  rw [hvin]

theorem SigInv.addScriptSig (h : pool.SigInv params spentScript)
    (hnodup : (pool.inputs.map fun t => t.prevout).Nodup) {txin : CTxIn}
    (hsigns : pool.Signs params spentScript txin) :
    (pool.addScriptSig params txin).1.SigInv params spentScript := by
  rw [CDarksendPool.addScriptSig]
  by_cases hhas : pool.hasScriptSig txin.scriptSig = true
  · rw [if_pos hhas]
    exact h
  rw [if_neg hhas]
  cases hvalid : pool.isInputScriptSigValid params txin with
  | false => exact h
  | true =>
    rw [Bool.not_eq_true] at hhas
    by_cases hfor : ∃ t ∈ pool.inputs, IsFor txin t.toCTxIn
    · obtain ⟨hstate, hverify⟩ := hsigns hhas hvalid hfor
      obtain ⟨t, ht, hfor⟩ := hfor
      have hgood : pool.Satisfies params spentScript txin.prevout txin.scriptSig := by
        intro i txin' hi hout
        exact hverify i txin' hi
          (h.isFor hnodup hstate ht hfor (List.mem_of_getElem? hi) hout)
      cases hadd : CDarkSendEntry.addToEntries txin pool.vecEntries with
      | none => exact h.of_records hnodup hstate ht hfor hgood rfl rfl rfl rfl fun t' ht' => .inl ht'
      | some vecEntries =>
        have hrecords := CDarkSendEntry.records_addToEntries hadd
        have hlength : vecEntries.length = pool.vecEntries.length := by
          simpa using congrArg List.length (CDarkSendEntry.sent_addToEntries hadd)
        exact h.of_records hnodup hstate ht hfor hgood rfl rfl hlength hrecords.keys hrecords.mem
    · have hnone : CDarkSendEntry.addToEntries txin pool.vecEntries = none := by
        cases hadd : CDarkSendEntry.addToEntries txin pool.vecEntries with
        | none => rfl
        | some vecEntries =>
          exact absurd (CDarkSendEntry.records_addToEntries hadd).exists_isFor hfor
      simp only [hnone, h.signFinal_eq hfor]
      exact h

theorem SigInv.addScriptSigs : ∀ {vecTxIn : List CTxIn} {pool : CDarksendPool},
    pool.SigInv params spentScript → (pool.inputs.map fun t => t.prevout).Nodup →
      pool.SignsAll params spentScript vecTxIn →
      (pool.addScriptSigs params vecTxIn).1.SigInv params spentScript
  | [], _, h, _, _ => h
  | txin :: vecTxIn, pool, h, hnodup, hsigns => by
    have hfirst := h.addScriptSig hnodup hsigns.1
    have hsame := sameSession_addScriptSig params pool txin
    rw [CDarksendPool.addScriptSigs]
    split_ifs with hadded
    · exact SigInv.addScriptSigs hfirst (hsame.inputs_eq ▸ hnodup) (hsigns.2 hadded)
    · exact hfirst

/-! ### Runs -/

theorem SigInv.checkPool (h : pool.SigInv params spentScript) :
    (pool.checkPool params env).SigInv params spentScript := by
  rw [CDarksendPool.checkPool]
  split_ifs with hcreate hcommit hreset
  · obtain ⟨hstate, hfull⟩ := hcreate
    have hquiet : pool.nState ≠ POOL_STATE_SIGNING := by
      rw [hstate]
      exact PoolState.noConfusion
    obtain ⟨hsigs, -⟩ := h.quiet hquiet
    refine ⟨fun hne => absurd rfl hne, fun _ => hfull, fun _ key => ?_, ?_, ?_⟩
    · show key ∈ (List.mergeSort _ _).map CTxIn.key ↔ _
      rw [((List.mergeSort_perm _ _).map CTxIn.key).mem_iff]
      show key ∈ (pool.inputs.map CTxDSIn.toCTxIn).map CTxIn.key ↔ _
      rw [List.map_map]
      rfl
    · exact fun txdsin hmem hsig => absurd (hsigs txdsin hmem) (by simp [hsig])
    · exact fun txdsin hmem hsig => absurd (hsigs txdsin hmem) (by simp [hsig])
  · exact sigInv_setNull _
  · exact sigInv_setNull _
  · exact h

theorem SigInv.of_quiet (h : pool.SigInv params spentScript)
    (hstate : pool.nState ≠ POOL_STATE_SIGNING) (hstate' : pool'.nState ≠ POOL_STATE_SIGNING)
    (hentries : pool'.vecEntries = pool.vecEntries)
    (hfinal : pool'.finalMutableTransaction = pool.finalMutableTransaction) :
    pool'.SigInv params spentScript := by
  obtain ⟨hsigs, hvin⟩ := h.quiet hstate
  apply sigInv_of_quiet hstate'
  · rw [inputs, hentries]
    exact hsigs
  · rw [hfinal]
    exact hvin

theorem SigInv.processDsAccept (h : pool.SigInv params spentScript) (nDenom : ℤ)
    (txCollateral : CTransaction) :
    (pool.processDsAccept params env nDenom txCollateral).1.SigInv params spentScript := by
  obtain hsame | hnew | hjoin := processDsAccept_cases params env pool nDenom txCollateral
  · rw [hsame]
    exact h
  · obtain ⟨-, hidle, -, heq⟩ := createNewSession_eq_ok hnew
    rw [heq]
    exact h.of_quiet (by simp [hidle]) (by simp) rfl rfl
  · obtain ⟨-, hqueue, heq⟩ := addUserToExistingSession_eq_ok hjoin
    rw [heq]
    exact h.of_quiet (by simp [hqueue]) (by simp [hqueue]) rfl rfl

theorem SigInv.pushEntry (h : pool.SigInv params spentScript) {entry : SentEntry}
    (hchecked : pool.Checked params entry) :
    (pool.pushEntry env entry).SigInv params spentScript := by
  have hstate : pool.nState ≠ POOL_STATE_SIGNING := by
    intro hsigning
    have hfull := h.full hsigning
    have hroom := hchecked.room
    omega
  obtain ⟨hsigs, hvin⟩ := h.quiet hstate
  apply sigInv_of_quiet
  · exact hstate
  · intro txdsin hmem
    have hmem : txdsin ∈ (pool.vecEntries ++ [entry.read]).flatMap CDarkSendEntry.vecTxDSIn := hmem
    rw [List.flatMap_append, List.flatMap_singleton, List.mem_append] at hmem
    rcases hmem with hold | hnew
    · exact hsigs txdsin hold
    · obtain ⟨txin, -, rfl⟩ := List.mem_map.mp hnew
      rfl
  · exact hvin

theorem SigInv.processDsVin (h : pool.SigInv params spentScript) (entry : SentEntry) :
    (pool.processDsVin params env entry).1.SigInv params spentScript := by
  rw [CDarksendPool.processDsVin]
  cases hvin : pool.dsVinError params env entry with
  | some nMessageID => exact h
  | none =>
    cases hadd : pool.addEntryError params env entry with
    | some nMessageID => exact sigInv_setNull _
    | none => exact (h.pushEntry (checked_of_errors hvin hadd)).checkPool

theorem SigInv.processDsSignFinalTx (h : pool.SigInv params spentScript)
    (hok : pool.EntriesOk params) {vecTxIn : List CTxIn}
    (hgood : MIN_PRIVATESEND_PEER_PROTO_VERSION ≤ env.nVersion →
      pool.SignsAll params spentScript vecTxIn) :
    (pool.processDsSignFinalTx params env vecTxIn).SigInv params spentScript := by
  rw [CDarksendPool.processDsSignFinalTx]
  by_cases hversion : env.nVersion < MIN_PRIVATESEND_PEER_PROTO_VERSION
  · rw [if_pos hversion]
    exact h
  · rw [if_neg hversion]
    have hsigs := h.addScriptSigs hok.outpoints (hgood (not_lt.mp hversion))
    show SigInv params spentScript (if (CDarksendPool.addScriptSigs params pool vecTxIn).2 then _
      else _)
    split_ifs
    · exact hsigs.checkPool
    · exact hsigs

theorem SigInv.checkTimeout (h : pool.SigInv params spentScript) :
    (pool.checkTimeout env).SigInv params spentScript := by
  simp only [CDarksendPool.checkTimeout]
  split_ifs
  · exact sigInv_setNull _
  · exact h
  · exact sigInv_setNull _
  · exact h

theorem SigInv.checkForCompleteQueue (h : pool.SigInv params spentScript) :
    (pool.checkForCompleteQueue params).SigInv params spentScript := by
  rw [CDarksendPool.checkForCompleteQueue]
  split_ifs with hready
  · exact h.of_quiet (by simp [hready.1]) (by simp) rfl rfl
  · exact h

theorem SigInv.step (h : pool.SigInv params spentScript) (hok : pool.EntriesOk params)
    {e : MixEnv × MixEvent} (hgood : pool.SendsGood params spentScript e) :
    (pool.step params e).SigInv params spentScript := by
  obtain ⟨env, e⟩ := e
  cases e with
  | dsAccept nDenom txCollateral =>
    rw [CDarksendPool.step]
    split_ifs
    · exact h
    · exact h.processDsAccept nDenom txCollateral
  | dsVin entry =>
    rw [CDarksendPool.step]
    split_ifs
    · exact h
    · exact h.processDsVin entry
  | dsSignFinalTx vecTxIn =>
    rw [CDarksendPool.step]
    split_ifs with hoff
    · exact h
    · simp only [Bool.or_eq_true, Bool.not_eq_true', not_or, Bool.not_eq_true,
        Bool.not_eq_false] at hoff
      exact h.processDsSignFinalTx hok (hgood hoff.1 hoff.2)
  | checkTimeout => exact h.checkTimeout
  | checkForCompleteQueue => exact h.checkForCompleteQueue
  | checkPool => exact h.checkPool
  | resetPool => exact sigInv_setNull _

def evalSmall : List (List UInt8) → CScript → Option (List (List UInt8))
  | stack, [] => some stack
  | stack, opcode :: s =>
    if opcode = 0x51 then evalSmall ([1] :: stack) s
    else if opcode = 0x87 then
      match stack with
      | a :: b :: stack => evalSmall ((if a = b then [1] else []) :: stack) s
      | _ => none
    else none

def signParams : MixParams := { mixParams with evalScript := fun stack s _ => evalSmall stack s }

/-- The first output of transaction 21 is for anyone who puts a one on the stack. -/
def signEnv : MixEnv :=
  { mixEnv with
    getTransaction := fun hash =>
      if hash = 21 then some ⟨21, 1, [], [.of 1000010 [0x51, 0x87], .of 1000010 (keyScript 2),
        .of 1000010 (keyScript 2)], 0⟩
      else mixEnv.getTransaction hash }

def scriptOf (prevout : COutPoint) : CScript :=
  ((signEnv.getTransaction prevout.hash).bind fun tx => tx.vout[prevout.n]?).elim []
    CTxOut.scriptPubKey

/-- Three users send their entries; then someone puts a one on the stack, for a coin. -/
def signRun (n : ℕ) : List (MixEnv × MixEvent) :=
  [(signEnv, .dsAccept 8 (collateralOfUser 0)), (signEnv, .dsAccept 8 (collateralOfUser 1)),
    (signEnv, .dsAccept 8 (collateralOfUser 2)), (signEnv, .checkForCompleteQueue),
    (signEnv, .dsVin (entryOfUser 0)), (signEnv, .dsVin (entryOfUser 1)),
    (signEnv, .dsVin (entryOfUser 2)),
    (signEnv, .dsSignFinalTx [⟨⟨21, n⟩, [0x51], 4294967295⟩])]

end CDarksendPool

end Stonecoin
