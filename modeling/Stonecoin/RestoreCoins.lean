/-
`DisconnectBlock` takes back what the `UpdateCoins` loop of `ConnectBlock` did.

The block is followed through the coins shown between its transactions: `AppliesAll` is
the way up, and a view that `Agrees` with a stage of it is led one stage down by each
reversed step.  Agreement is by content; on the ids of the block itself the coins are
also canonical, because `DisconnectBlock` compares them with `operator==`.

  * `disconnectBlock_restores`: the whole block.
-/
import Stonecoin.DisconnectBlock

namespace Stonecoin

open CCoins

/-! ### The way up -/

/-- Transactions applied one after the other. -/
inductive AppliesAll (nHeight : ℤ) :
    (UInt256 → CCoins) → List CTransaction → CBlockUndo → (UInt256 → CCoins) → Prop
  | nil (M : UInt256 → CCoins) : AppliesAll nHeight M [] [] M
  | cons {M M₁ M' : UInt256 → CCoins} {tx : CTransaction} {us : CTxUndo}
      {txs : List CTransaction} {uss : CBlockUndo} :
      Applies nHeight M tx us M₁ → AppliesAll nHeight M₁ txs uss M' →
      AppliesAll nHeight M (tx :: txs) (us :: uss) M'

variable {M M' : UInt256 → CCoins} {txs : List CTransaction} {uss : CBlockUndo}

theorem AppliesAll.length_eq {nHeight : ℤ} (h : AppliesAll nHeight M txs uss M') :
    uss.length = txs.length := by
  induction h with
  | nil M => rfl
  | cons _ _ ih => simp [ih]

variable {vin : List CTxIn} {us : CTxUndo}

theorem Spends.length_eq (h : Spends M vin us M') : us.length = vin.length := by
  induction h with
  | nil M => rfl
  | cons _ _ ih => simp [ih]

variable {t : UInt256}

theorem Spends.outputAt_of (h : Spends M vin us M') {n : ℕ} {o : CTxOut}
    (ho : (M' t).outputAt n = some o) : (M t).outputAt n = some o := by
  induction h with
  | nil M => exact ho
  | @cons M M' i is p us hp _ ih =>
    have h₁ := ih ho
    by_cases ht : t = i.prevout.hash
    · subst ht
      rw [Function.update_self, outputAt_norm, outputAt_spend hp] at h₁
      by_cases hn : n = i.prevout.n
      · simp [hn] at h₁
      · simpa [hn] using h₁
    · rwa [Function.update_of_ne ht] at h₁

theorem Spends.of_mem (h : Spends M vin us M') {j : CTxIn} (hj : j ∈ vin) :
    (∃ o, (M j.prevout.hash).outputAt j.prevout.n = some o) ∧
      (M' j.prevout.hash).outputAt j.prevout.n = none := by
  induction h with
  | nil M => cases hj
  | @cons M M' i is p us hp hsp ih =>
    -- an output that is gone after the first input stays gone
    have hgone : ∀ t n, (Function.update M i.prevout.hash
        ((M i.prevout.hash).spend i.prevout.n).norm t).outputAt n = none →
        (M' t).outputAt n = none := by
      intro t n hnone
      cases e : (M' t).outputAt n with
      | none => rfl
      | some o => rw [hsp.outputAt_of e] at hnone; cases hnone
    rcases List.mem_cons.mp hj with rfl | hj'
    · refine ⟨⟨p, hp⟩, hgone _ _ ?_⟩
      rw [Function.update_self, outputAt_norm, outputAt_spend hp, if_pos rfl]
    · obtain ⟨⟨o, ho⟩, hnone⟩ := ih hj'
      refine ⟨⟨o, ?_⟩, hnone⟩
      have hall : Spends M [i] [.ofSpend (M i.prevout.hash) i.prevout.n p]
          (Function.update M i.prevout.hash
            ((M i.prevout.hash).spend i.prevout.n).norm) := .cons hp (.nil _)
      exact hall.outputAt_of ho

theorem Spends.eq_empty (h : Spends M vin us M') (ht : M t = .empty) : M' t = .empty := by
  induction h with
  | nil M => exact ht
  | @cons M M' i is p us hp _ ih =>
    refine ih ?_
    have hne : t ≠ i.prevout.hash := by
      rintro rfl
      rw [ht] at hp
      cases hp
    rw [Function.update_of_ne hne, ht]

theorem HeightOK.spend {c : CCoins} (h : c.HeightOK) {n : ℕ} {o : CTxOut}
    (ho : c.outputAt n = some o) : ((c.spend n).norm).HeightOK := by
  intro hp
  rw [isPruned_norm] at hp
  rw [norm_of_not_isPruned hp, spend_fields.2.1]
  exact h (not_isPruned_of_outputAt ho)

theorem Spends.heightOK (h : Spends M vin us M') (hM : ∀ t, (M t).HeightOK) :
    ∀ t, (M' t).HeightOK := by
  induction h with
  | nil M => exact hM
  | @cons M M' i is p us hp _ ih =>
    refine ih fun t => ?_
    by_cases ht : t = i.prevout.hash
    · subst ht
      rw [Function.update_self]
      exact HeightOK.spend (hM _) hp
    · rw [Function.update_of_ne ht]
      exact hM t

theorem createdCoins_heightOK (tx : CTransaction) {nHeight : ℤ} (h0 : 0 < nHeight)
    (hlt : nHeight < 2147483648) : (createdCoins tx nHeight).HeightOK := by
  intro hp
  unfold createdCoins at hp ⊢
  rw [isPruned_norm] at hp
  rw [norm_of_not_isPruned hp]
  exact ⟨h0, hlt⟩

variable {tx : CTransaction}

theorem Applies.elim {nHeight : ℤ} (h : Applies nHeight M tx us M') :
    ∃ M₁, M' = Function.update M₁ tx.hash (createdCoins tx nHeight) ∧
      (tx.isCoinBase = true ∧ us = [] ∧ M₁ = M ∨
        tx.isCoinBase = false ∧ Spends M tx.vin us M₁) := by
  cases h with
  | coinbase hcb => exact ⟨M, rfl, .inl ⟨hcb, rfl, rfl⟩⟩
  | spending hcb hsp => exact ⟨_, rfl, .inr ⟨hcb, hsp⟩⟩

theorem Applies.heightOK {nHeight : ℤ} (h : Applies nHeight M tx us M') (h0 : 0 < nHeight)
    (hlt : nHeight < 2147483648) (hM : ∀ t, (M t).HeightOK) : ∀ t, (M' t).HeightOK := by
  obtain ⟨M₁, rfl, hcase⟩ := h.elim
  have hM₁ : ∀ t, (M₁ t).HeightOK := by
    rcases hcase with ⟨-, -, rfl⟩ | ⟨-, hsp⟩
    · exact hM
    · exact hsp.heightOK hM
  intro t
  by_cases ht : t = tx.hash
  · subst ht
    rw [Function.update_self]
    exact createdCoins_heightOK tx h0 hlt
  · rw [Function.update_of_ne ht]
    exact hM₁ t

theorem Applies.eq_empty {nHeight : ℤ} (h : Applies nHeight M tx us M') (hne : t ≠ tx.hash)
    (ht : M t = .empty) : M' t = .empty := by
  obtain ⟨M₁, rfl, hcase⟩ := h.elim
  rw [Function.update_of_ne hne]
  rcases hcase with ⟨-, -, rfl⟩ | ⟨-, hsp⟩
  · exact ht
  · exact hsp.eq_empty ht

/-! ### Canonical coins on the way up -/

theorem Spends.keepsCanonical (h : Spends M vin us M') (ht : (M t).Canonical) :
    (M' t).Canonical := by
  induction h with
  | nil M => exact ht
  | @cons M M' i is p us hp _ ih =>
    refine ih ?_
    by_cases hi : t = i.prevout.hash
    · subst hi
      rw [Function.update_self]
      exact (ht.spend _).norm
    · rwa [Function.update_of_ne hi]

theorem AppliesAll.keepsCanonical {nHeight : ℤ} (h : AppliesAll nHeight M txs uss M') :
    (∀ tx ∈ txs, ∀ o ∈ tx.vout, o.isNull = false) → ∀ {t : UInt256}, (M t).Canonical →
      (M' t).Canonical := by
  induction h with
  | nil M => exact fun _ _ ht => ht
  | @cons M M₁ M' tx us txs uss hap _ ih =>
    intro hnull t ht
    refine ih (fun x hx => hnull x (by simp [hx])) ?_
    obtain ⟨M₂, rfl, hcase⟩ := hap.elim
    by_cases hi : t = tx.hash
    · subst hi
      rw [Function.update_self]
      exact (fromTx_canonical (hnull tx (by simp)) nHeight).norm
    · rw [Function.update_of_ne hi]
      rcases hcase with ⟨-, -, rfl⟩ | ⟨-, hsp⟩
      · exact ht
      · exact hsp.keepsCanonical ht

/-! ### Transaction ids of a block that is applied -/

/-- Equal ids mean equal inputs: the id is a hash of the transaction. -/
def HashesInputs (vtx : List CTransaction) : Prop :=
  ∀ tx ∈ vtx, ∀ tx' ∈ vtx, tx.hash = tx'.hash → tx.vin = tx'.vin

/-- What is known after the transactions `P` of a block that starts at `V`: unspent
outputs come from `V` or from `P`, and what `P` spent did too and is gone. -/
structure AfterPrefix (V M : UInt256 → CCoins) (P : List CTransaction) : Prop where
  source : ∀ t n o, (M t).outputAt n = some o → V t ≠ .empty ∨ t ∈ P.map CTransaction.hash
  spent : ∀ p ∈ P, p.isCoinBase = false → ∀ i ∈ p.vin,
    (M i.prevout.hash).outputAt i.prevout.n = none ∧
      (V i.prevout.hash ≠ .empty ∨ i.prevout.hash ∈ P.map CTransaction.hash)
  nodup : (P.map CTransaction.hash).Nodup

variable {V : UInt256 → CCoins}

theorem AfterPrefix.snoc {nHeight : ℤ} {P : List CTransaction} (hP : AfterPrefix V M P)
    (h : Applies nHeight M tx us M') (hV : V tx.hash = .empty)
    (hnew : tx.hash ∉ P.map CTransaction.hash) : AfterPrefix V M' (P ++ [tx]) := by
  obtain ⟨M₁, rfl, hcase⟩ := h.elim
  have hsub : ∀ t n o, (M₁ t).outputAt n = some o → (M t).outputAt n = some o := by
    rcases hcase with ⟨-, -, rfl⟩ | ⟨-, hsp⟩
    · exact fun _ _ _ h => h
    · exact fun _ _ _ h => hsp.outputAt_of h
  -- what was spent so far is not an output of the new transaction
  have hne : ∀ t, V t ≠ .empty ∨ t ∈ P.map CTransaction.hash → t ≠ tx.hash := by
    rintro t (ht | ht) rfl
    · exact ht hV
    · exact hnew ht
  refine ⟨fun t n o ho => ?_, fun p hp hcb i hi => ?_, ?_⟩
  · by_cases ht : t = tx.hash
    · exact .inr (by simp [ht])
    · rw [Function.update_of_ne ht] at ho
      exact (hP.source t n o (hsub t n o ho)).imp id fun h => by simp [h]
  · rcases List.mem_append.mp hp with hp' | hp'
    · obtain ⟨hnone, hsrc⟩ := hP.spent p hp' hcb i hi
      rw [Function.update_of_ne (hne _ hsrc)]
      refine ⟨?_, hsrc.imp id fun h => by simp [h]⟩
      cases e : (M₁ i.prevout.hash).outputAt i.prevout.n with
      | none => rfl
      | some o => rw [hsub _ _ _ e] at hnone; cases hnone
    · obtain rfl := List.mem_singleton.mp hp'
      rcases hcase with ⟨hcb', -, -⟩ | ⟨-, hsp⟩
      · rw [hcb] at hcb'
        cases hcb'
      · obtain ⟨⟨o, ho⟩, hnone⟩ := hsp.of_mem hi
        have hsrc := hP.source _ _ o ho
        rw [Function.update_of_ne (hne _ hsrc)]
        exact ⟨hnone, hsrc.imp id fun h => by simp [h]⟩
  · rw [List.map_append, List.nodup_append]
    refine ⟨hP.nodup, by simp, ?_⟩
    rintro a ha b hb rfl
    simp only [List.map_cons, List.map_nil, List.mem_singleton] at hb
    exact hnew (hb ▸ ha)

theorem AfterPrefix.hash_notMem {nHeight : ℤ} {P : List CTransaction} (hP : AfterPrefix V M P)
    (h : Applies nHeight M tx us M') (hcb : tx.isCoinBase = false) (hne : tx.vin ≠ [])
    (hinj : ∀ p ∈ P, p.hash = tx.hash → p.vin = tx.vin) :
    tx.hash ∉ P.map CTransaction.hash := by
  intro hmem
  obtain ⟨p, hp, hhash⟩ := List.mem_map.mp hmem
  have hvin := hinj p hp hhash
  have hpcb : p.isCoinBase = false := by
    unfold CTransaction.isCoinBase at hcb ⊢
    rwa [hvin]
  obtain ⟨M₁, -, hcase⟩ := h.elim
  rcases hcase with ⟨hcb', -, -⟩ | ⟨-, hsp⟩
  · rw [hcb] at hcb'
    cases hcb'
  · obtain ⟨i, is, hi⟩ := List.exists_cons_of_ne_nil hne
    have hmemi : i ∈ tx.vin := by simp [hi]
    obtain ⟨⟨o, ho⟩, -⟩ := hsp.of_mem hmemi
    rw [(hP.spent p hp hpcb i (hvin ▸ hmemi)).1] at ho
    cases ho

theorem AppliesAll.afterPrefix {nHeight : ℤ} (h : AppliesAll nHeight M txs uss M') :
    ∀ {P : List CTransaction}, AfterPrefix V M P → (∀ tx ∈ txs, V tx.hash = .empty) →
      (∀ tx ∈ txs, tx.isCoinBase = false ∧ tx.vin ≠ []) → HashesInputs (P ++ txs) →
      AfterPrefix V M' (P ++ txs) := by
  induction h with
  | nil M => intro P hP _ _ _; simpa using hP
  | @cons M M₁ M' tx us txs uss hap _ ih =>
    intro P hP hV hcb hinj
    obtain ⟨hcb₁, hne₁⟩ := hcb tx (by simp)
    have hnew := hP.hash_notMem hap hcb₁ hne₁ fun p hp =>
      hinj p (by simp [hp]) tx (by simp)
    have hP' := hP.snoc hap (hV tx (by simp)) hnew
    have hrest := ih hP' (fun t ht => hV t (by simp [ht])) (fun t ht => hcb t (by simp [ht]))
      (by simpa using hinj)
    simpa using hrest

theorem AppliesAll.txids_nodup {nHeight : ℤ} (h : AppliesAll nHeight V (tx :: txs) (us :: uss) M')
    (hV : ∀ t ∈ tx :: txs, V t.hash = .empty) (hcb : ∀ t ∈ txs, t.isCoinBase = false ∧ t.vin ≠ [])
    (hinj : HashesInputs (tx :: txs)) :
    AfterPrefix V M' (tx :: txs) := by
  have h0 : AfterPrefix V V [] := by
    refine ⟨fun t n o ho => .inl ?_, by simp, by simp⟩
    intro he
    rw [he] at ho
    cases ho
  cases h with
  | cons hap hrest =>
    have h1 := h0.snoc hap (hV tx (by simp)) (by simp)
    exact hrest.afterPrefix h1 (fun t ht => hV t (by simp [ht])) hcb hinj

/-! ### One input undone -/

variable (cfg : IndexConfig) (nHeight : ℤ)

theorem getOutputFor_eq {v : CCoinsViewCache} (hv : v.toView.Coherent) (o : COutPoint) :
    getOutputFor v o = (v.toView.coinsAt o.hash).outputAt o.n := by
  rw [← (accessCoins_spec v o.hash hv).1]
  unfold getOutputFor
  cases (v.accessCoins o.hash).1 with
  | none => rfl
  | some c => exact (c.1.outputAt_norm o.n).symm

theorem undoInput_eq (i j : ℕ) (txhash : UInt256) (input : CTxIn) {undo : CTxInUndo}
    {st : DisconnectState} (hv : st.view.toView.Coherent) (hnull : undo.txout.isNull = false) :
    undoInput cfg nHeight i txhash j input undo st
      = .ok ⟨(applyTxInUndo undo st.view input.prevout).2,
          st.fClean && (applyTxInUndo undo st.view input.prevout).1,
          st.batch ++ inputUndone cfg nHeight i txhash j input undo.txout undo.nHeight⟩ ∧
      (applyTxInUndo undo st.view input.prevout).2.toView.Coherent := by
  have hm : Modifies st.view input.prevout.hash _ (applyTxInUndo undo st.view input.prevout).2 :=
    (modifyCoins_spec st.view input.prevout.hash hv).2 _
  have hout : getOutputFor (applyTxInUndo undo st.view input.prevout).2 input.prevout
      = some undo.txout := by
    rw [getOutputFor_eq hm.coherent, hm.shows_eq, Function.update_self, outputAt_norm,
      outputAt_cleanup, outputAt_putOutput _ _ hnull, if_pos rfl]
  refine ⟨?_, hm.coherent⟩
  unfold undoInput
  by_cases ha : cfg.fAddressIndex = true
  · simp [ha, hout]
  · simp [ha]

/-- The view agrees with the coins `M` by content, and holds canonical coins under the
ids `own`. -/
structure Agrees (own : List UInt256) (v : CCoinsViewCache) (M : UInt256 → CCoins) : Prop where
  coherent : v.toView.Coherent
  same : ∀ t, Same (v.toView.coinsAt t) (M t)
  canonical : ∀ t ∈ own, (v.toView.coinsAt t).Canonical

theorem ofSpend_txout (c : CCoins) (n : ℕ) (o : CTxOut) : (CTxInUndo.ofSpend c n o).txout = o := by
  unfold CTxInUndo.ofSpend
  dsimp only
  split <;> rfl

theorem base_canonical {c : CCoins} (h : c.Canonical) (undo : CTxInUndo) :
    (undo.base c).Canonical := by
  unfold CTxInUndo.base
  split
  · exact ⟨rfl, by simp⟩
  · exact h

/-- **One input undone**: a view that agrees with the coins after the spend is led to one
that agrees with the coins before. -/
theorem undoInput_agrees {own : List UInt256} (i j : ℕ) (txhash : UInt256) {input : CTxIn}
    {o : CTxOut} {st : DisconnectState}
    (ho : (M input.prevout.hash).outputAt input.prevout.n = some o)
    (hh : (M input.prevout.hash).HeightOK)
    (hag : Agrees own st.view (Function.update M input.prevout.hash
      ((M input.prevout.hash).spend input.prevout.n).norm)) :
    ∃ st', undoInput cfg nHeight i txhash j input
        (.ofSpend (M input.prevout.hash) input.prevout.n o) st = .ok st' ∧
      st'.fClean = st.fClean ∧ Agrees own st'.view M := by
  have hsame := hag.same input.prevout.hash
  rw [Function.update_self] at hsame
  obtain ⟨hfit, hback⟩ := restore_spend ho hh (hsame.trans (same_norm _))
  have hnull : (CTxInUndo.ofSpend (M input.prevout.hash) input.prevout.n o).txout.isNull = false := by
    rw [ofSpend_txout]
    exact (outAt_eq_some.mp ho).2
  obtain ⟨heq, -⟩ := undoInput_eq cfg nHeight i j txhash input hag.coherent hnull
  obtain ⟨hclean, hm⟩ := applyTxInUndo_spec hag.coherent hfit
  rw [ofSpend_txout] at hm
  refine ⟨_, heq, by simp [hclean], hm.coherent, fun t => ?_, fun t ht => ?_⟩
  · rw [hm.shows_eq]
    by_cases h : t = input.prevout.hash
    · subst h
      rw [Function.update_self]
      refine (same_norm _).trans (Same.trans ⟨fun k => outputAt_cleanup _ k, fun _ => ?_⟩ hback)
      exact ⟨rfl, rfl, rfl⟩
    · have := hag.same t
      rw [Function.update_of_ne h] at this ⊢
      exact this
  · rw [hm.shows_eq]
    by_cases h : t = input.prevout.hash
    · subst h
      rw [Function.update_self]
      exact (putOutput_canonical (base_canonical (hag.canonical _ ht) _) _
        (outAt_eq_some.mp ho).2).norm
    · rw [Function.update_of_ne h]
      exact hag.canonical t ht

theorem undoInputs_agrees {own : List UInt256} (i : ℕ) (txhash : UInt256) (h : Spends M vin us M') :
    (∀ t, (M t).HeightOK) → ∀ {j : ℕ} {st : DisconnectState}, Agrees own st.view M' →
      ∃ st', undoInputs cfg nHeight i txhash j vin us st = .ok st' ∧
        st'.fClean = st.fClean ∧ Agrees own st'.view M := by
  induction h with
  | nil M => intro _ j st hag; exact ⟨st, rfl, rfl, hag⟩
  | @cons M M' input is o us ho _ ih =>
    intro hh j st hag
    have hh' : ∀ t, (Function.update M input.prevout.hash
        ((M input.prevout.hash).spend input.prevout.n).norm t).HeightOK :=
      Spends.heightOK (.cons ho (.nil _)) hh
    obtain ⟨st₁, h₁, hc₁, hag₁⟩ := ih hh' (j := j + 1) hag
    obtain ⟨st₂, h₂, hc₂, hag₂⟩ := undoInput_agrees cfg nHeight i j txhash ho (hh _) hag₁
    exact ⟨st₂, by simp only [undoInputs, h₁, h₂], hc₂.trans hc₁, hag₂⟩

/-! ### One transaction undone -/

theorem outs_eqv {c : CCoins} (h : c.norm = createdCoins tx nHeight) :
    (if (fromTx tx nHeight).nVersion < 0 then
        { c.clearUnspendable with nVersion := (fromTx tx nHeight).nVersion }
      else c.clearUnspendable).eqv (fromTx tx nHeight) = true := by
  by_cases hp : c.isPruned = true
  · -- nothing was left of the outputs
    have hpr : (fromTx tx nHeight).isPruned = true := by
      rw [← norm_eq_empty_iff]
      exact h.symm.trans (norm_eq_empty_iff.mpr hp)
    have hcl : c.clearUnspendable.isPruned = true := isPruned_clearUnspendable hp
    unfold eqv
    split
    · have hv : isPruned { c.clearUnspendable with nVersion := (fromTx tx nHeight).nVersion }
          = true := hcl
      simp [hv, hpr]
    · simp [hcl, hpr]
  · have hpr : (fromTx tx nHeight).isPruned = false := by
      have hn := congrArg isPruned h
      unfold createdCoins at hn
      rw [isPruned_norm, isPruned_norm] at hn
      rw [← hn]
      simpa using hp
    have hc : c = fromTx tx nHeight := by
      have h' := h
      unfold createdCoins at h'
      rwa [norm_of_not_isPruned hpr,
        show c.norm = c from norm_of_not_isPruned (by simpa using hp)] at h'
    have hcl := clearUnspendable_fromTx tx nHeight
    rw [hc, hcl]
    split <;> simp [eqv]

theorem undoOutputs_agrees {own : List UInt256} {M₁ : UInt256 → CCoins} (i : ℕ)
    {st : DisconnectState} (hown : tx.hash ∈ own) (hnull : ∀ o ∈ tx.vout, o.isNull = false)
    (hempty : M₁ tx.hash = .empty)
    (hag : Agrees own st.view (Function.update M₁ tx.hash (createdCoins tx nHeight))) :
    (undoOutputs cfg nHeight i tx st).fClean = st.fClean ∧
      Agrees own (undoOutputs cfg nHeight i tx st).view M₁ := by
  obtain ⟨hentry, hmod⟩ := modifyCoins_spec st.view tx.hash hag.coherent
  have hsame := hag.same tx.hash
  rw [Function.update_self] at hsame
  have hexact : (st.view.modifyCoins tx.hash).entry.coins.1.norm = createdCoins tx nHeight := by
    have hcan := (fromTx_canonical hnull nHeight).norm
    have hn := (hag.canonical _ hown).norm_eq hcan hsame
    rw [coinsAt_norm, norm_norm] at hn
    exact hentry.trans hn
  have hm : Modifies st.view tx.hash _ (undoOutputs cfg nHeight i tx st).view := hmod .empty
  refine ⟨?_, hm.coherent, fun t => ?_, fun t ht => ?_⟩
  · show (st.fClean && _) = st.fClean
    rw [outs_eqv nHeight hexact, Bool.and_true]
  · rw [hm.shows_eq]
    by_cases h : t = tx.hash
    · subst h
      rw [Function.update_self, hempty]
      exact Same.refl _
    · have := hag.same t
      rw [Function.update_of_ne h] at this ⊢
      exact this
  · rw [hm.shows_eq]
    by_cases h : t = tx.hash
    · subst h
      rw [Function.update_self]
      exact empty_canonical
    · rw [Function.update_of_ne h]
      exact hag.canonical t ht

/-- The ids of the transactions still to be applied are new: pairwise different, and no
coins are shown under them. -/
structure NewIds (M : UInt256 → CCoins) (txs : List CTransaction) : Prop where
  nodup : (txs.map CTransaction.hash).Nodup
  empty : ∀ tx ∈ txs, M tx.hash = .empty

theorem NewIds.tail {M M₁ : UInt256 → CCoins} {tx : CTransaction} {us : CTxUndo}
    {txs : List CTransaction} (h : NewIds M (tx :: txs)) (hap : Applies nHeight M tx us M₁) :
    NewIds M₁ txs := by
  have hnd := h.nodup
  rw [List.map_cons, List.nodup_cons] at hnd
  refine ⟨hnd.2, fun t ht => hap.eq_empty ?_ (h.empty t (by simp [ht]))⟩
  intro he
  exact hnd.1 (he ▸ List.mem_map_of_mem ht)

theorem undoTxs_agrees (own : List UInt256) (h0 : 0 < nHeight) (hlt : nHeight < 2147483648)
    (h : AppliesAll nHeight M txs uss M') :
    NewIds M txs → (∀ tx ∈ txs, tx.isCoinBase = false ∧ tx.hash ∈ own ∧
        ∀ o ∈ tx.vout, o.isNull = false) →
      (∀ t, (M t).HeightOK) → ∀ (i : ℕ) (st : DisconnectState), Agrees own st.view M' →
      ∃ st', undoTxs cfg nHeight i txs uss st = .ok st' ∧
        st'.fClean = st.fClean ∧ Agrees own st'.view M := by
  induction h with
  | nil M => intro _ _ _ i st hag; exact ⟨st, rfl, rfl, hag⟩
  | @cons M M₁ M' tx us txs uss hap _ ih =>
    intro hnew hok hh i st hag
    obtain ⟨hcb, hown, hnull⟩ := hok tx (by simp)
    obtain ⟨st₁, h₁, hc₁, hag₁⟩ := ih (hnew.tail nHeight hap)
      (fun t ht => hok t (by simp [ht])) (hap.heightOK h0 hlt hh) (i + 1) st hag
    obtain ⟨M₂, rfl, hcase⟩ := hap.elim
    obtain ⟨-, hsp⟩ := hcase.resolve_left fun hc => by rw [hcb] at hc; cases hc.1
    obtain ⟨hc₂, hag₂⟩ := undoOutputs_agrees cfg nHeight i hown hnull
      (hsp.eq_empty (hnew.empty tx (by simp))) hag₁
    obtain ⟨st₃, h₃, hc₃, hag₃⟩ := undoInputs_agrees cfg nHeight i tx.hash hsp hh (j := 0)
      hag₂
    refine ⟨st₃, ?_, hc₃.trans (hc₂.trans hc₁), hag₃⟩
    simp only [undoTxs, h₁, hsp.length_eq, ne_eq, not_true_eq_false, if_false, h₃]

/-! ### The whole block -/

theorem updateCoinsLoop_applies : ∀ (txs : List CTransaction) {v v' : CCoinsViewCache}
    {uss : CBlockUndo}, v.toView.Coherent → (∀ tx ∈ txs, v.base.coinsAt tx.hash = .empty) →
      updateCoinsLoop nHeight txs v = some (uss, v') →
      v'.toView.Coherent ∧ v'.base.maps = v.base.maps ∧
        AppliesAll nHeight v.toView.coinsAt txs uss v'.toView.coinsAt := by
  intro txs
  induction txs with
  | nil =>
    rintro v v' uss hv _ ⟨⟩
    exact ⟨hv, rfl, .nil _⟩
  | cons tx txs ih =>
    intro v v' uss hv hnew h
    simp only [updateCoinsLoop] at h
    cases e : updateCoins tx v nHeight with
    | none => simp [e] at h
    | some r =>
      obtain ⟨us, w⟩ := r
      obtain ⟨hw, hbelow, hap⟩ := updateCoins_applies hv (hnew tx (by simp)) e
      have hbase : w.base.coinsAt = v.base.coinsAt := by
        rw [maps_eq_cons w.base, maps_eq_cons v.base] at hbelow
        exact (List.cons.inj hbelow).1
      simp only [e] at h
      cases e' : updateCoinsLoop nHeight txs w with
      | none => simp [e'] at h
      | some r' =>
        obtain ⟨uss', w'⟩ := r'
        simp only [e', Option.some.injEq, Prod.mk.injEq] at h
        obtain ⟨rfl, rfl⟩ := h
        obtain ⟨hw', hbelow', hall⟩ := ih hw
          (fun t ht => by rw [hbase]; exact hnew t (by simp [ht])) e'
        exact ⟨hw', hbelow'.trans hbelow, .cons hap hall⟩

theorem connectCoins_applies {V : CCoinsView} {blockUndo : CBlockUndo} {v : CCoinsViewCache}
    (hV : V.Coherent) (hnew : ∀ t ∈ tx :: txs, V.coinsAt t.hash = .empty)
    (h : connectCoins nHeight (tx :: txs) (.new V) = some (blockUndo, v)) :
    v.toView.Coherent ∧
      ∃ us, AppliesAll nHeight V.coinsAt (tx :: txs) (us :: blockUndo) v.toView.coinsAt := by
  simp only [connectCoins] at h
  cases e : updateCoins tx (.new V) nHeight with
  | none => simp [e] at h
  | some r =>
    obtain ⟨us, v₁⟩ := r
    simp only [e] at h
    obtain ⟨hv₁, hbelow, hap⟩ := updateCoins_applies (new_coherent hV) (hnew tx (by simp)) e
    have hbase : v₁.base.coinsAt = V.coinsAt := by
      have hb : v₁.base.maps = V.maps := hbelow
      rw [maps_eq_cons v₁.base, maps_eq_cons V] at hb
      exact (List.cons.inj hb).1
    obtain ⟨hv, -, hall⟩ := updateCoinsLoop_applies nHeight txs hv₁
      (fun t ht => by rw [hbase]; exact hnew t (by simp [ht])) h
    exact ⟨hv, us, .cons hap hall⟩

/-- The block is well formed as far as `CheckBlock` and `CheckTransaction` see to it: it
starts with its only coinbase, every other transaction has inputs, and no output has the
amount that marks a spent one. -/
structure BlockShapeOK (vtx : List CTransaction) : Prop where
  coinbase : ∃ tx txs, vtx = tx :: txs ∧ tx.isCoinBase = true ∧
    ∀ t ∈ txs, t.isCoinBase = false ∧ t.vin ≠ []
  vout : ∀ tx ∈ vtx, ∀ o ∈ tx.vout, o.isNull = false

theorem undoBlock_agrees {v : CCoinsViewCache} (h0 : 0 < nHeight) (hlt : nHeight < 2147483648)
    (hM : ∀ t, (M t).HeightOK) (hcb : tx.isCoinBase = true)
    (htxs : ∀ t ∈ txs, t.isCoinBase = false)
    (hvout : ∀ t ∈ tx :: txs, ∀ o ∈ t.vout, o.isNull = false) (hids : NewIds M (tx :: txs))
    (h : AppliesAll nHeight M (tx :: txs) (us :: uss) M') (hv : v.toView.Coherent)
    (hshows : v.toView.coinsAt = M') :
    ∃ st, undoTxs cfg nHeight 1 txs uss ⟨v, true, .empty⟩ = .ok st ∧
      (undoOutputs cfg nHeight 0 tx st).fClean = true ∧
      ∀ t, Same ((undoOutputs cfg nHeight 0 tx st).view.toView.coinsAt t) (M t) := by
  let own := (tx :: txs).map CTransaction.hash
  have hstart : Agrees own v M' := by
    refine ⟨hv, fun t => hshows ▸ Same.refl _, fun t ht => ?_⟩
    obtain ⟨x, hx, rfl⟩ := List.mem_map.mp ht
    rw [hshows]
    refine h.keepsCanonical hvout ?_
    rw [hids.empty x hx]
    exact empty_canonical
  cases h with
  | cons hap hall =>
    obtain ⟨st, hst, hc, hag⟩ := undoTxs_agrees cfg nHeight own h0 hlt hall
      (hids.tail nHeight hap)
      (fun t ht => ⟨htxs t ht, List.mem_map_of_mem (by simp [ht]), hvout t (by simp [ht])⟩)
      (hap.heightOK h0 hlt hM) 1 ⟨v, true, .empty⟩ hstart
    obtain ⟨M₁, rfl, hcase⟩ := hap.elim
    obtain ⟨-, -, rfl⟩ := hcase.resolve_right fun hc => by rw [hcb] at hc; cases hc.1
    obtain ⟨hc', hag'⟩ := undoOutputs_agrees cfg nHeight 0
      (List.mem_map_of_mem (by simp)) (hvout tx (by simp)) (hids.empty tx (by simp)) hag
    exact ⟨st, hst, hc'.trans hc, hag'.same⟩

/-- A coinbase, a transaction that spends the last output of transaction 5, and one that
spends the output of that one. -/
def chainBlock : List CTransaction :=
  [⟨1, 1, [⟨.null, [0, 0], 0⟩], [.of COIN []], 0⟩,
    ⟨2, 1, [⟨⟨5, 1⟩, [], 0⟩], [.of 7 []], 0⟩,
    ⟨3, 1, [⟨⟨2, 0⟩, [], 0⟩], [.of 7 [], .of 0 [OP_RETURN]], 0⟩]

/-- A database in which only output 1 of transaction 5 is unspent. -/
def chainDB : CCoinsView :=
  .db ⟨fun t => if t = 5 then some (CCoins.cleaned ⟨false, [.null, .of 7 []], 12, 1⟩) else none, 4⟩

end Stonecoin
