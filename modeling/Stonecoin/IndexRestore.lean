/-
The index entries that `ConnectBlock` writes, against those that `DisconnectBlock` takes
back.

Both sides are functions of the block and its undo records alone: `txsConnected` and
`txsUndone`.  They have the same address keys and the same unspent keys.  Two things are
not taken back: the spent entries, for which `DisconnectBlock` fills a batch that it never
writes, and what the maps held before under the keys that are erased.

  * `disconnectBlock_restores_indexes_iff`: when the indexes are restored.
-/
import Stonecoin.ConnectBlock

namespace Stonecoin

open CCoins

/-! ### The entries of `DisconnectBlock` -/

section

variable (cfg : IndexConfig) (nHeight : ℤ)

/-- The entries that undo the inputs of a transaction, from the last. -/
def inputsUndone (i : ℕ) (txhash : UInt256) (j : ℕ) (vin : List CTxIn) (us : CTxUndo) :
    IndexBatch :=
  .collectRev (fun j x => inputUndone cfg nHeight i txhash j x.1 x.2.txout x.2.nHeight) j
    (vin.zip us)

/-- The entries that undo a transaction: its outputs, then its inputs. -/
def txUndone (i : ℕ) (tx : CTransaction) (us : CTxUndo) : IndexBatch :=
  (if cfg.fAddressIndex then outputsUndone nHeight i tx.hash 0 tx.vout else .empty)
    ++ inputsUndone cfg nHeight i tx.hash 0 tx.vin us

def txsUndone (i : ℕ) (txs : List CTransaction) (uss : CBlockUndo) : IndexBatch :=
  .collectRev (fun i x => txUndone cfg nHeight i x.1 x.2) i (txs.zip uss)

/-- The records hold one output for each input. -/
def RecordsOK (txs : List CTransaction) (uss : CBlockUndo) : Prop :=
  List.Forall₂ (fun tx us => us.length = tx.vin.length ∧ ∀ u ∈ us, u.txout.isNull = false) txs uss

theorem undoInputs_batch (i : ℕ) (txhash : UInt256) : ∀ (vin : List CTxIn) {us : CTxUndo}
    {j : ℕ} {st : DisconnectState}, (∀ u ∈ us, u.txout.isNull = false) →
      st.view.toView.Coherent →
      ∃ st', undoInputs cfg nHeight i txhash j vin us st = .ok st' ∧
        st'.view.toView.Coherent ∧
        st'.batch = st.batch ++ inputsUndone cfg nHeight i txhash j vin us := by
  intro vin
  induction vin with
  | nil =>
    intro us j st _ hv
    exact ⟨st, rfl, hv, (IndexBatch.append_empty _).symm⟩
  | cons input vin ih =>
    intro us j st hnull hv
    cases us with
    | nil => exact ⟨st, rfl, hv, (IndexBatch.append_empty _).symm⟩
    | cons u us =>
      obtain ⟨st₁, h₁, hv₁, hb₁⟩ := ih (j := j + 1)
        (fun x (hx : x ∈ us) => hnull x (by simp [hx])) hv
      obtain ⟨h₂, hv₂⟩ := undoInput_eq cfg nHeight i j txhash input hv₁ (hnull u (by simp))
      refine ⟨_, (by simp only [undoInputs, h₁]; exact h₂), hv₂, ?_⟩
      show st₁.batch ++ _ = _
      rw [hb₁, IndexBatch.append_assoc]
      rfl

theorem undoOutputs_coherent (i : ℕ) (tx : CTransaction) {st : DisconnectState}
    (hv : st.view.toView.Coherent) :
    (undoOutputs cfg nHeight i tx st).view.toView.Coherent :=
  ((modifyCoins_spec st.view tx.hash hv).2 .empty).coherent

theorem undoOutputs_batch (i : ℕ) (tx : CTransaction) (st : DisconnectState) :
    (undoOutputs cfg nHeight i tx st).batch
      = st.batch ++ if cfg.fAddressIndex then outputsUndone nHeight i tx.hash 0 tx.vout
          else .empty := by
  show (if cfg.fAddressIndex then _ else _) = _
  split
  · rfl
  · exact (IndexBatch.append_empty _).symm

theorem undoTxs_batch {txs : List CTransaction} {uss : CBlockUndo} (h : RecordsOK txs uss) :
    ∀ (i : ℕ) {st : DisconnectState}, st.view.toView.Coherent →
      ∃ st', undoTxs cfg nHeight i txs uss st = .ok st' ∧ st'.view.toView.Coherent ∧
        st'.batch = st.batch ++ txsUndone cfg nHeight i txs uss := by
  induction h with
  | nil =>
    intro i st hv
    exact ⟨st, rfl, hv, (IndexBatch.append_empty _).symm⟩
  | @cons tx us txs uss hrec _ ih =>
    intro i st hv
    obtain ⟨st₁, h₁, hv₁, hb₁⟩ := ih (i + 1) hv
    obtain ⟨st₂, h₂, hv₂, hb₂⟩ := undoInputs_batch cfg nHeight i tx.hash tx.vin (j := 0)
      hrec.2 (undoOutputs_coherent cfg nHeight i tx hv₁)
    refine ⟨st₂, ?_, hv₂, ?_⟩
    · simp only [undoTxs, h₁, hrec.1, ne_eq, not_true_eq_false, if_false, h₂]
    · rw [hb₂, undoOutputs_batch, hb₁, IndexBatch.append_assoc, IndexBatch.append_assoc]
      rfl

end

/-! ### Keys on both sides -/

def IndexBatch.addressKeys (b : IndexBatch) : List CAddressIndexKey := b.addressIndex.map Prod.fst

def IndexBatch.unspentKeys (b : IndexBatch) : List CAddressUnspentKey :=
  b.addressUnspentIndex.map Prod.fst

def IndexBatch.spentKeys (b : IndexBatch) : List CSpentIndexKey := b.spentIndex.map Prod.fst

theorem part_addressKeys : IndexBatch.Part IndexBatch.addressKeys :=
  ⟨rfl, fun _ _ => List.map_append⟩

theorem part_unspentKeys : IndexBatch.Part IndexBatch.unspentKeys :=
  ⟨rfl, fun _ _ => List.map_append⟩

theorem part_spentIndex : IndexBatch.Part IndexBatch.spentIndex := ⟨rfl, fun _ _ => rfl⟩

def SameKeys {β : Type} (part : IndexBatch → List β) (a b : IndexBatch) : Prop :=
  ∀ e, e ∈ part a ↔ e ∈ part b

theorem SameKeys.append {β : Type} {part : IndexBatch → List β} (hp : IndexBatch.Part part)
    {a a' b b' : IndexBatch} (ha : SameKeys part a a') (hb : SameKeys part b b') :
    SameKeys part (a ++ b) (b' ++ a') := by
  intro e
  rw [hp.append, hp.append, List.mem_append, List.mem_append, ha e, hb e, or_comm]

theorem SameKeys.collect {α β : Type} {part : IndexBatch → List β} (hp : IndexBatch.Part part)
    {f g : ℕ → α → IndexBatch} (h : ∀ k x, SameKeys part (f k x) (g k x)) (k : ℕ)
    (xs : List α) : SameKeys part (.collect f k xs) (.collectRev g k xs) := by
  intro e
  rw [IndexBatch.mem_collectRev hp, IndexBatch.mem_collect hp, IndexBatch.mem_collect hp]
  constructor
  · rintro ⟨n, x, hx, he⟩
    exact ⟨n, x, hx, (h _ x e).mp he⟩
  · rintro ⟨n, x, hx, he⟩
    exact ⟨n, x, hx, (h _ x e).mpr he⟩

section

variable (cfg : IndexConfig) (nHeight : ℤ)

theorem outputsConnected_eq (i : ℕ) (txhash : UInt256) : ∀ (vout : List CTxOut) (k : ℕ),
    outputsConnected nHeight i txhash k vout
      = .collect (outputConnected nHeight i txhash) k vout := by
  intro vout
  induction vout with
  | nil => exact fun k => rfl
  | cons out vout ih => exact fun k => congrArg (_ ++ ·) (ih (k + 1))

theorem outputsUndone_eq (i : ℕ) (txhash : UInt256) : ∀ (vout : List CTxOut) (k : ℕ),
    outputsUndone nHeight i txhash k vout
      = .collectRev (outputUndone nHeight i txhash) k vout := by
  intro vout
  induction vout with
  | nil => exact fun k => rfl
  | cons out vout ih => exact fun k => congrArg (· ++ _) (ih (k + 1))

theorem inputsConnected_eq (i : ℕ) (txhash : UInt256) :
    ∀ (vin : List CTxIn) (us : CTxUndo) (j : ℕ),
      inputsConnected cfg nHeight i txhash j vin (us.map CTxInUndo.txout)
        = .collect (fun j x => inputConnected cfg nHeight i txhash j x.1 x.2.txout) j
            (vin.zip us) := by
  intro vin
  induction vin with
  | nil => exact fun us j => rfl
  | cons input vin ih =>
    intro us j
    cases us with
    | nil => rfl
    | cons u us => exact congrArg (_ ++ ·) (ih us (j + 1))

theorem txsConnected_eq : ∀ (txs : List CTransaction) (uss : CBlockUndo) (i : ℕ),
    txsConnected cfg nHeight i txs uss
      = .collect (fun i x => txConnected cfg nHeight i x.1 x.2) i (txs.zip uss) := by
  intro txs
  induction txs with
  | nil => exact fun uss i => rfl
  | cons tx txs ih =>
    intro uss i
    cases uss with
    | nil => rfl
    | cons us uss => exact congrArg (_ ++ ·) (ih uss (i + 1))

theorem sameKeys_txs {β : Type} {part : IndexBatch → List β} (hp : IndexBatch.Part part)
    (hout : ∀ i txhash k out,
      SameKeys part (outputConnected nHeight i txhash k out) (outputUndone nHeight i txhash k out))
    (hin : ∀ i txhash j input prevout undoHeight,
      SameKeys part (inputConnected cfg nHeight i txhash j input prevout)
        (inputUndone cfg nHeight i txhash j input prevout undoHeight))
    (i : ℕ) (txs : List CTransaction) (uss : CBlockUndo) :
    SameKeys part (txsConnected cfg nHeight i txs uss) (txsUndone cfg nHeight i txs uss) := by
  rw [txsConnected_eq]
  refine SameKeys.collect hp (fun i x => ?_) i _
  refine SameKeys.append hp ?_ ?_
  · rw [inputsConnected_eq]
    exact SameKeys.collect hp (fun j (y : CTxIn × CTxInUndo) => hin i x.1.hash j y.1 y.2.txout y.2.nHeight) 0 _
  · split
    · rw [outputsConnected_eq, outputsUndone_eq]
      exact SameKeys.collect hp (hout i x.1.hash) 0 _
    · exact fun e => Iff.rfl

theorem sameAddressKeys (i : ℕ) (txs : List CTransaction) (uss : CBlockUndo) :
    SameKeys IndexBatch.addressKeys (txsConnected cfg nHeight i txs uss)
      (txsUndone cfg nHeight i txs uss) := by
  refine sameKeys_txs cfg nHeight part_addressKeys ?_ ?_ i txs uss
  · intro i txhash k out e
    unfold outputConnected outputUndone
    rcases scriptAddress out.scriptPubKey with - | ⟨type, hashBytes⟩ <;> rfl
  · intro i txhash j input prevout undoHeight e
    exact Iff.rfl

theorem sameUnspentKeys (i : ℕ) (txs : List CTransaction) (uss : CBlockUndo) :
    SameKeys IndexBatch.unspentKeys (txsConnected cfg nHeight i txs uss)
      (txsUndone cfg nHeight i txs uss) := by
  refine sameKeys_txs cfg nHeight part_unspentKeys ?_ ?_ i txs uss
  · intro i txhash k out e
    unfold outputConnected outputUndone
    rcases scriptAddress out.scriptPubKey with - | ⟨type, hashBytes⟩ <;> rfl
  · intro i txhash j input prevout undoHeight e
    simp only [IndexBatch.unspentKeys, inputConnected, inputUndone]
    rcases scriptAddress prevout.scriptPubKey with - | ⟨type, hashBytes⟩
    · rfl
    · dsimp only
      split <;> rfl

end

/-! ### Where the outputs spent come from -/

def MadeBy (txs : List CTransaction) (o : COutPoint) (out : CTxOut) : Prop :=
  ∃ p ∈ txs, p.hash = o.hash ∧ p.vout[o.n]? = some out

theorem Applies.recorded {nHeight : ℤ} {M M' : UInt256 → CCoins} {tx : CTransaction}
    {us : CTxUndo} (h : Applies nHeight M tx us M') :
    ∀ y ∈ tx.vin.zip us,
      (M y.1.prevout.hash).outputAt y.1.prevout.n = some y.2.txout := by
  intro y hy
  obtain ⟨M₁, -, hcase⟩ := h.elim
  rcases hcase with ⟨-, rfl, -⟩ | ⟨-, hsp⟩
  · simp at hy
  · exact (List.forall₂_iff_zip.mp hsp.recorded).2 hy

theorem Applies.outputAt_of {nHeight : ℤ} {M M' : UInt256 → CCoins} {tx : CTransaction}
    {us : CTxUndo} (h : Applies nHeight M tx us M') {t : UInt256} {n : ℕ} {o : CTxOut}
    (ho : (M' t).outputAt n = some o) :
    (M t).outputAt n = some o ∨ t = tx.hash ∧ tx.vout[n]? = some o := by
  obtain ⟨M₁, rfl, hcase⟩ := h.elim
  by_cases ht : t = tx.hash
  · subst ht
    rw [Function.update_self, createdCoins, outputAt_norm] at ho
    exact .inr ⟨rfl, getElem?_of_outputAt_fromTx ho⟩
  · rw [Function.update_of_ne ht] at ho
    rcases hcase with ⟨-, -, rfl⟩ | ⟨-, hsp⟩
    · exact .inl ho
    · exact .inl (hsp.outputAt_of ho)

theorem AppliesAll.sources {nHeight : ℤ} {M M' : UInt256 → CCoins} {txs : List CTransaction}
    {uss : CBlockUndo} (h : AppliesAll nHeight M txs uss M') :
    ∀ x ∈ txs.zip uss, ∀ y ∈ x.1.vin.zip x.2,
      (M y.1.prevout.hash).outputAt y.1.prevout.n = some y.2.txout ∨
        MadeBy txs y.1.prevout y.2.txout := by
  induction h with
  | nil M => simp
  | @cons M M₁ M' tx us txs uss hap _ ih =>
    intro x hx y hy
    rcases List.mem_cons.mp hx with rfl | hx'
    · exact .inl (hap.recorded y hy)
    · rcases ih x hx' y hy with ho | ⟨p, hp, hh, hn⟩
      · rcases hap.outputAt_of ho with ho' | ⟨hh, hn⟩
        · exact .inl ho'
        · exact .inr ⟨tx, by simp, hh.symm, hn⟩
      · exact .inr ⟨p, by simp [hp], hh, hn⟩

/-- No input spends an output of its own transaction or of a later one. -/
def Causal : List CTransaction → CBlockUndo → Prop
  | [], [] => True
  | tx :: txs, us :: uss =>
    (∀ y ∈ tx.vin.zip us, ∀ q ∈ tx :: txs, y.1.prevout.hash ≠ q.hash) ∧ Causal txs uss
  | _, _ => False

theorem AppliesAll.causal {nHeight : ℤ} {M M' : UInt256 → CCoins} {txs : List CTransaction}
    {uss : CBlockUndo} (h : AppliesAll nHeight M txs uss M') : NewIds M txs → Causal txs uss := by
  induction h with
  | nil M => exact fun _ => trivial
  | @cons M M₁ M' tx us txs uss hap _ ih =>
    intro hnew
    refine ⟨fun y hy q hq he => ?_, ih (hnew.tail nHeight hap)⟩
    have ho := hap.recorded y hy
    rw [he, hnew.empty q hq] at ho
    cases ho

/-! ### No output is spent twice -/

def spentKeysOf (x : CTransaction × CTxUndo) : List CSpentIndexKey :=
  (x.1.vin.zip x.2).map fun y => ⟨y.1.prevout.hash, y.1.prevout.n⟩

theorem Spends.prevouts_nodup {M M' : UInt256 → CCoins} {vin : List CTxIn} {us : CTxUndo}
    (h : Spends M vin us M') : (vin.map CTxIn.prevout).Nodup := by
  induction h with
  | nil M => simp
  | @cons M M' i is o us ho hsp ih =>
    rw [List.map_cons, List.nodup_cons]
    refine ⟨fun hmem => ?_, ih⟩
    obtain ⟨j, hj, he⟩ := List.mem_map.mp hmem
    -- the first spend has made it unavailable
    obtain ⟨⟨p, hp⟩, -⟩ := hsp.of_mem hj
    rw [he, Function.update_self, outputAt_norm, outputAt_spend ho, if_pos rfl] at hp
    cases hp

theorem Applies.spentKeys_nodup {nHeight : ℤ} {M M' : UInt256 → CCoins} {tx : CTransaction}
    {us : CTxUndo} (h : Applies nHeight M tx us M') : (spentKeysOf (tx, us)).Nodup := by
  obtain ⟨M₁, -, hcase⟩ := h.elim
  rcases hcase with ⟨-, rfl, -⟩ | ⟨-, hsp⟩
  · simp [spentKeysOf]
  · have hkeys : spentKeysOf (tx, us)
        = (tx.vin.map CTxIn.prevout).map fun o => (⟨o.hash, o.n⟩ : CSpentIndexKey) := by
      rw [← List.map_fst_zip (le_of_eq hsp.length_eq.symm), List.map_map, List.map_map]
      rfl
    rw [hkeys]
    refine hsp.prevouts_nodup.map fun a b hab => ?_
    cases a
    cases b
    simpa using hab

theorem AppliesAll.spentKeys_nodup {nHeight : ℤ} {M M' : UInt256 → CCoins}
    {txs : List CTransaction} {uss : CBlockUndo} (h : AppliesAll nHeight M txs uss M') :
    NewIds M txs → ((txs.zip uss).flatMap spentKeysOf).Nodup := by
  induction h with
  | nil M => simp
  | @cons M M₁ M' tx us txs uss hap hall ih =>
    intro hnew
    have hcausal := ((AppliesAll.cons hap hall).causal hnew).1
    show (spentKeysOf (tx, us) ++ (txs.zip uss).flatMap spentKeysOf).Nodup
    rw [List.nodup_append]
    refine ⟨hap.spentKeys_nodup, ih (hnew.tail nHeight hap), ?_⟩
    rintro a ha b hb rfl
    obtain ⟨y, hy, rfl⟩ := List.mem_map.mp ha
    obtain ⟨x, hx, hb'⟩ := List.mem_flatMap.mp hb
    obtain ⟨z, hz, he⟩ := List.mem_map.mp hb'
    simp only [CSpentIndexKey.mk.injEq] at he
    obtain ⟨M₂, hM₁, hcase⟩ := hap.elim
    rcases hcase with ⟨-, rfl, -⟩ | ⟨-, hsp⟩
    · simp at hy
    -- spent again, it would be unspent after the first transaction, or made later
    · rcases hall.sources x hx z hz with ho | ⟨p, hp, hh, -⟩
      · rw [he.1, he.2, hM₁, Function.update_of_ne (hcausal y hy tx (by simp)),
          (hsp.of_mem (List.of_mem_zip hy).1).2] at ho
        cases ho
      · exact hcausal y hy p (by simp [hp]) (he.1.symm.trans hh.symm)

/-! ### The unspent entries of the block itself -/

theorem part_addressUnspentIndex : IndexBatch.Part IndexBatch.addressUnspentIndex :=
  ⟨rfl, fun _ _ => rfl⟩

def OwnKey (txs : List CTransaction) (k : CAddressUnspentKey) : Prop :=
  ∃ tx ∈ txs, ∃ n out type hashBytes, tx.vout[n]? = some out ∧
    scriptAddress out.scriptPubKey = some (type, hashBytes) ∧
    k = ⟨type, hashBytes, tx.hash, n⟩

section

variable (cfg : IndexConfig) (nHeight : ℤ)

theorem mem_unspentKeys_outputs {i : ℕ} {txhash : UInt256} {vout : List CTxOut}
    {k : CAddressUnspentKey} :
    k ∈ (outputsUndone nHeight i txhash 0 vout).unspentKeys ↔
      ∃ n out type hashBytes, vout[n]? = some out ∧
        scriptAddress out.scriptPubKey = some (type, hashBytes) ∧
        k = ⟨type, hashBytes, txhash, n⟩ := by
  rw [outputsUndone_eq, IndexBatch.mem_collectRev part_unspentKeys,
    IndexBatch.mem_collect part_unspentKeys]
  refine exists_congr fun n => exists_congr fun out => ?_
  unfold outputUndone
  rcases scriptAddress out.scriptPubKey with - | ⟨type, hashBytes⟩
  · simp [IndexBatch.unspentKeys, IndexBatch.empty]
  · simp only [IndexBatch.unspentKeys, List.map_cons, List.map_nil, List.mem_singleton, zero_add,
      Option.some.injEq, Prod.mk.injEq]
    constructor
    · rintro ⟨hout, rfl⟩
      exact ⟨type, hashBytes, hout, ⟨rfl, rfl⟩, rfl⟩
    · rintro ⟨_, _, hout, ⟨rfl, rfl⟩, rfl⟩
      exact ⟨hout, rfl⟩

theorem entry_outputsUndone {i : ℕ} {txhash : UInt256} {vout : List CTxOut} :
    ∀ e ∈ (outputsUndone nHeight i txhash 0 vout).addressUnspentIndex, e.2.entry = none := by
  intro e he
  rw [outputsUndone_eq, IndexBatch.mem_collectRev part_addressUnspentIndex,
    IndexBatch.mem_collect part_addressUnspentIndex] at he
  obtain ⟨n, out, -, he⟩ := he
  unfold outputUndone at he
  rcases hs : scriptAddress out.scriptPubKey with - | ⟨type, hashBytes⟩
  · rw [hs] at he
    cases he
  · rw [hs] at he
    obtain rfl := List.mem_singleton.mp he
    rfl

theorem of_mem_unspentKeys_inputs {i j : ℕ} {txhash : UInt256} {vin : List CTxIn} {us : CTxUndo}
    {k : CAddressUnspentKey} (h : k ∈ (inputsUndone cfg nHeight i txhash j vin us).unspentKeys) :
    ∃ y ∈ vin.zip us, ∃ type hashBytes,
      scriptAddress y.2.txout.scriptPubKey = some (type, hashBytes) ∧
        k = ⟨type, hashBytes, y.1.prevout.hash, y.1.prevout.n⟩ := by
  rw [inputsUndone, IndexBatch.mem_collectRev part_unspentKeys,
    IndexBatch.mem_collect part_unspentKeys] at h
  obtain ⟨n, y, hy, hk⟩ := h
  refine ⟨y, List.mem_of_getElem? hy, ?_⟩
  simp only [inputUndone, IndexBatch.unspentKeys] at hk
  rcases hs : scriptAddress y.2.txout.scriptPubKey with - | ⟨type, hashBytes⟩
  · rw [hs] at hk
    cases hk
  · rw [hs] at hk
    dsimp only at hk
    split at hk
    · exact ⟨type, hashBytes, rfl, by simpa using hk⟩
    · cases hk

def IndexBatch.unspentEntries (b : IndexBatch) :
    List (CAddressUnspentKey × Option CAddressUnspentValue) :=
  b.addressUnspentIndex.map fun e => (e.1, e.2.entry)

theorem unspentEntries_append (a b : IndexBatch) :
    (a ++ b).unspentEntries = a.unspentEntries ++ b.unspentEntries :=
  List.map_append

theorem map_fst_unspentEntries (b : IndexBatch) :
    b.unspentEntries.map Prod.fst = b.unspentKeys := by
  unfold IndexBatch.unspentEntries IndexBatch.unspentKeys
  rw [List.map_map]
  rfl

theorem ownKey_erased (hcfg : cfg.fAddressIndex = true) : ∀ {txs : List CTransaction}
    {uss : CBlockUndo} {i : ℕ} (m : CAddressUnspentKey → Option CAddressUnspentValue)
    {k : CAddressUnspentKey}, Causal txs uss → OwnKey txs k →
      applyBatch m (txsUndone cfg nHeight i txs uss).unspentEntries k = none := by
  intro txs
  induction txs with
  | nil =>
    rintro uss i m k _ ⟨tx, hmem, -⟩
    cases hmem
  | cons tx txs ih =>
    intro uss i m k hcausal hown
    cases uss with
    | nil => exact hcausal.elim
    | cons us uss =>
      have hsplit : txsUndone cfg nHeight i (tx :: txs) (us :: uss)
          = txsUndone cfg nHeight (i + 1) txs uss
            ++ (outputsUndone nHeight i tx.hash 0 tx.vout
              ++ inputsUndone cfg nHeight i tx.hash 0 tx.vin us) := by
        show _ ++ txUndone cfg nHeight i tx us = _
        rw [txUndone, if_pos hcfg]
        rfl
      rw [hsplit, unspentEntries_append, unspentEntries_append, applyBatch_append,
        applyBatch_append]
      -- the inputs restore entries of earlier transactions only
      rw [applyBatch_of_notMem _ ?_]
      · by_cases hk : k ∈ (outputsUndone nHeight i tx.hash 0 tx.vout).unspentKeys
        · refine applyBatch_none _ (fun x hx => ?_) (by rwa [map_fst_unspentEntries])
          obtain ⟨e, he, rfl⟩ := List.mem_map.mp hx
          exact entry_outputsUndone nHeight e he
        · rw [applyBatch_of_notMem _ (by rwa [map_fst_unspentEntries])]
          refine ih m hcausal.2 ?_
          obtain ⟨p, hp, hrest⟩ := hown
          rcases List.mem_cons.mp hp with rfl | hp'
          · exact absurd ((mem_unspentKeys_outputs nHeight).mpr hrest) hk
          · exact ⟨p, hp', hrest⟩
      · rw [map_fst_unspentEntries]
        intro hk
        obtain ⟨y, hy, type, hashBytes, -, rfl⟩ := of_mem_unspentKeys_inputs cfg nHeight hk
        obtain ⟨p, hp, n, out, _, _, -, -, he⟩ := hown
        exact hcausal.1 y hy p hp (congrArg CAddressUnspentKey.txhash he)

theorem of_mem_unspentKeys {i : ℕ} {txs : List CTransaction} {uss : CBlockUndo}
    {k : CAddressUnspentKey} (h : k ∈ (txsUndone cfg nHeight i txs uss).unspentKeys) :
    OwnKey txs k ∨ ∃ x ∈ txs.zip uss, ∃ y ∈ x.1.vin.zip x.2, ∃ type hashBytes,
      scriptAddress y.2.txout.scriptPubKey = some (type, hashBytes) ∧
        k = ⟨type, hashBytes, y.1.prevout.hash, y.1.prevout.n⟩ := by
  rw [txsUndone, IndexBatch.mem_collectRev part_unspentKeys,
    IndexBatch.mem_collect part_unspentKeys] at h
  obtain ⟨n, x, hx, hk⟩ := h
  have hmem := List.mem_of_getElem? hx
  rw [txUndone, part_unspentKeys.append, List.mem_append] at hk
  rcases hk with hk | hk
  · split at hk
    · exact .inl ⟨x.1, (List.of_mem_zip hmem).1, (mem_unspentKeys_outputs nHeight).mp hk⟩
    · cases hk
  · exact .inr ⟨x, hmem, of_mem_unspentKeys_inputs cfg nHeight hk⟩

end

/-! ### The spent entries -/

/-- The value written for input `j` of a transaction, which spends `out`. -/
def spentValue (nHeight : ℤ) (txhash : UInt256) (j : ℕ) (out : CTxOut) : CSpentIndexValue :=
  ⟨txhash, j, nHeight, out.nValue, ((scriptAddress out.scriptPubKey).getD (0, .null)).1,
    ((scriptAddress out.scriptPubKey).getD (0, .null)).2⟩

theorem part_spentKeys : IndexBatch.Part IndexBatch.spentKeys := ⟨rfl, fun _ _ => List.map_append⟩

theorem spentIndex_outputsConnected {nHeight : ℤ} {i : ℕ} {txhash : UInt256} {k : ℕ}
    {vout : List CTxOut} : (outputsConnected nHeight i txhash k vout).spentIndex = [] := by
  rw [outputsConnected_eq, IndexBatch.collect_eq_flatMap part_spentIndex (g := fun _ => [])]
  · simp
  · intro k out
    unfold outputConnected
    rcases scriptAddress out.scriptPubKey with - | ⟨type, hashBytes⟩ <;> rfl

section

variable (cfg : IndexConfig) (nHeight : ℤ)

theorem spentKeys_txsConnected (hcfg : cfg.fSpentIndex = true) (i : ℕ) (txs : List CTransaction)
    (uss : CBlockUndo) :
    (txsConnected cfg nHeight i txs uss).spentKeys = (txs.zip uss).flatMap spentKeysOf := by
  rw [txsConnected_eq]
  refine IndexBatch.collect_eq_flatMap part_spentKeys (fun i x => ?_) _ i
  have hout : (if cfg.fAddressIndex then outputsConnected nHeight i x.1.hash 0 x.1.vout
      else IndexBatch.empty).spentKeys = [] := by
    split
    · exact congrArg (List.map Prod.fst) spentIndex_outputsConnected
    · rfl
  rw [txConnected, part_spentKeys.append, hout, List.append_nil, inputsConnected_eq,
    IndexBatch.collect_eq_flatMap part_spentKeys
      (g := fun y => [⟨y.1.prevout.hash, y.1.prevout.n⟩])]
  · rw [← List.map_eq_flatMap]
    rfl
  · intro j y
    simp [IndexBatch.spentKeys, inputConnected, hcfg]

theorem mem_spentIndex (hcfg : cfg.fSpentIndex = true) {txs : List CTransaction}
    {uss : CBlockUndo} {e : CSpentIndexKey × CSpentIndexValue} :
    e ∈ (txsConnected cfg nHeight 0 txs uss).spentIndex ↔
      ∃ (i : ℕ) (x : CTransaction × CTxUndo), (txs.zip uss)[i]? = some x ∧
        ∃ (j : ℕ) (y : CTxIn × CTxInUndo), (x.1.vin.zip x.2)[j]? = some y ∧
          e = (⟨y.1.prevout.hash, y.1.prevout.n⟩, spentValue nHeight x.1.hash j y.2.txout) := by
  rw [txsConnected_eq, IndexBatch.mem_collect part_spentIndex]
  refine exists_congr fun i => exists_congr fun x => and_congr_right fun _ => ?_
  have hout : (if cfg.fAddressIndex then outputsConnected nHeight (0 + i) x.1.hash 0 x.1.vout
      else IndexBatch.empty).spentIndex = [] := by
    split
    · exact spentIndex_outputsConnected
    · rfl
  rw [txConnected, part_spentIndex.append, hout, List.append_nil, inputsConnected_eq,
    IndexBatch.mem_collect part_spentIndex]
  refine exists_congr fun j => exists_congr fun y => and_congr_right fun _ => ?_
  simp [inputConnected, hcfg, spentValue]

theorem mem_addressKeys (hcfg : cfg.fAddressIndex = true) {txs : List CTransaction}
    {uss : CBlockUndo} {k : CAddressIndexKey} :
    k ∈ (txsUndone cfg nHeight 0 txs uss).addressKeys ↔
      ∃ (i : ℕ) (x : CTransaction × CTxUndo), (txs.zip uss)[i]? = some x ∧
        ((∃ n out, x.1.vout[n]? = some out ∧ ∃ type hashBytes,
            scriptAddress out.scriptPubKey = some (type, hashBytes) ∧
            k = ⟨type, hashBytes, nHeight, i, x.1.hash, n, false⟩) ∨
          ∃ (j : ℕ) (y : CTxIn × CTxInUndo), (x.1.vin.zip x.2)[j]? = some y ∧ ∃ type hashBytes,
            scriptAddress y.2.txout.scriptPubKey = some (type, hashBytes) ∧
            k = ⟨type, hashBytes, nHeight, i, x.1.hash, j, true⟩) := by
  rw [txsUndone, IndexBatch.mem_collectRev part_addressKeys,
    IndexBatch.mem_collect part_addressKeys]
  refine exists_congr fun i => exists_congr fun x => and_congr_right fun _ => ?_
  rw [txUndone, if_pos hcfg, part_addressKeys.append, List.mem_append, outputsUndone_eq,
    inputsUndone, IndexBatch.mem_collectRev part_addressKeys,
    IndexBatch.mem_collectRev part_addressKeys, IndexBatch.mem_collect part_addressKeys,
    IndexBatch.mem_collect part_addressKeys]
  refine or_congr ?_ ?_
  · refine exists_congr fun n => exists_congr fun out => and_congr_right fun _ => ?_
    unfold outputUndone
    rcases scriptAddress out.scriptPubKey with - | ⟨type, hashBytes⟩
    · simp [IndexBatch.addressKeys, IndexBatch.empty]
    · simp [IndexBatch.addressKeys]
  · refine exists_congr fun j => exists_congr fun y => and_congr_right fun _ => ?_
    simp only [inputUndone, IndexBatch.addressKeys]
    rcases scriptAddress y.2.txout.scriptPubKey with - | ⟨type, hashBytes⟩
    · simp
    · simp [hcfg]

end

/-! ### When the indexes are restored -/

/-- The indexes fit the coins: unspent address outputs have their unspent entries, and no
unspent output has a spent entry. -/
structure IndexConsistent (db : CBlockTreeDB) (M : UInt256 → CCoins) : Prop where
  unspent : ∀ t n out type hashBytes, (M t).outputAt n = some out →
    scriptAddress out.scriptPubKey = some (type, hashBytes) →
    db.addressUnspentIndex ⟨type, hashBytes, t, n⟩
      = some ⟨out.nValue, out.scriptPubKey, (M t).nHeight⟩
  spent : ∀ t n, (M t).outputAt n ≠ none → db.spentIndex ⟨t, n⟩ = none

/-- The indexes before the block hold nothing under the keys that connecting it creates,
and whatever the block spends is made by the block and marked as spent already. -/
structure IndexesRestorable (db : CBlockTreeDB) (nHeight : ℤ) (vtx : List CTransaction) :
    Prop where
  receive : ∀ i tx k out type hashBytes, vtx[i]? = some tx → tx.vout[k]? = some out →
    scriptAddress out.scriptPubKey = some (type, hashBytes) →
    db.addressIndex ⟨type, hashBytes, nHeight, i, tx.hash, k, false⟩ = none ∧
      db.addressUnspentIndex ⟨type, hashBytes, tx.hash, k⟩ = none
  spend : ∀ i tx j input, vtx[i]? = some tx → tx.isCoinBase = false → tx.vin[j]? = some input →
    ∃ out, MadeBy vtx input.prevout out ∧
      (∀ type hashBytes, scriptAddress out.scriptPubKey = some (type, hashBytes) →
        db.addressIndex ⟨type, hashBytes, nHeight, i, tx.hash, j, true⟩ = none) ∧
      db.spentIndex ⟨input.prevout.hash, input.prevout.n⟩
        = some (spentValue nHeight tx.hash j out)

/-- The indexes after a call; a call that fails writes nothing. -/
def indexesAfter (db : CBlockTreeDB) : Except String Disconnected → CBlockTreeDB
  | .error _ => db
  | .ok r => r.db

theorem AppliesAll.recordsOK {nHeight : ℤ} {M M' : UInt256 → CCoins} {txs : List CTransaction}
    {uss : CBlockUndo} (h : AppliesAll nHeight M txs uss M') :
    (∀ tx ∈ txs, tx.isCoinBase = false) → RecordsOK txs uss := by
  induction h with
  | nil M => exact fun _ => .nil
  | @cons M M₁ M' tx us txs uss hap _ ih =>
    intro hcb
    refine .cons ?_ (ih fun t ht => hcb t (by simp [ht]))
    obtain ⟨M₂, -, hcase⟩ := hap.elim
    rcases hcase with ⟨hcb', -, -⟩ | ⟨-, hsp⟩
    · rw [hcb tx (by simp)] at hcb'
      cases hcb'
    · refine ⟨hsp.length_eq, fun u hu => ?_⟩
      obtain ⟨n, hn⟩ := List.getElem?_of_mem hu
      have hlt : n < tx.vin.length := by
        rw [← hsp.length_eq]
        exact (List.getElem?_eq_some_iff.mp hn).1
      have hz : (tx.vin[n], u) ∈ tx.vin.zip us :=
        List.mem_of_getElem? (List.getElem?_zip_eq_some.mpr ⟨List.getElem?_eq_getElem hlt, hn⟩)
      exact (outAt_eq_some.mp (hap.recorded _ hz)).2

theorem exists_zip {α β : Type} {xs : List α} {ys : List β} (h : ys.length = xs.length) {i : ℕ}
    {x : α} (hx : xs[i]? = some x) : ∃ y, (xs.zip ys)[i]? = some (x, y) := by
  have hlt : i < ys.length := by
    rw [h]
    exact (List.getElem?_eq_some_iff.mp hx).1
  exact ⟨ys[i], List.getElem?_zip_eq_some.mpr ⟨hx, List.getElem?_eq_getElem hlt⟩⟩

theorem AppliesAll.record_at {nHeight : ℤ} {M M' : UInt256 → CCoins} {txs : List CTransaction}
    {uss : CBlockUndo} (h : AppliesAll nHeight M txs uss M') :
    ∀ x ∈ txs.zip uss, ∀ {j : ℕ} {input : CTxIn}, x.1.isCoinBase = false →
      x.1.vin[j]? = some input → ∃ u, (x.1.vin.zip x.2)[j]? = some (input, u) := by
  induction h with
  | nil M => simp
  | @cons M M₁ M' tx us txs uss hap _ ih =>
    intro x hx j input hcb hj
    rcases List.mem_cons.mp hx with rfl | hx'
    · obtain ⟨M₂, -, hcase⟩ := hap.elim
      rcases hcase with ⟨hcb', -, -⟩ | ⟨-, hsp⟩
      · rw [hcb] at hcb'
        cases hcb'
      · exact exists_zip hsp.length_eq hj
    · exact ih x hx' hcb hj

theorem AppliesAll.isCoinBase_of_record {nHeight : ℤ} {M M' : UInt256 → CCoins}
    {txs : List CTransaction} {uss : CBlockUndo} (h : AppliesAll nHeight M txs uss M') :
    ∀ x ∈ txs.zip uss, ∀ y ∈ x.1.vin.zip x.2, x.1.isCoinBase = false := by
  induction h with
  | nil M => simp
  | @cons M M₁ M' tx us txs uss hap _ ih =>
    intro x hx y hy
    rcases List.mem_cons.mp hx with rfl | hx'
    · obtain ⟨M₂, -, hcase⟩ := hap.elim
      rcases hcase with ⟨-, rfl, -⟩ | ⟨hcb, -⟩
      · simp at hy
      · exact hcb
    · exact ih x hx' y hy

section

variable {nHeight : ℤ} {db : CBlockTreeDB} {M M' : UInt256 → CCoins} {txs : List CTransaction}
  {uss : CBlockUndo}

theorem MadeBy.unique (hnew : NewIds M txs) {o : COutPoint} {a b : CTxOut}
    (ha : MadeBy txs o a) (hb : MadeBy txs o b) : a = b := by
  obtain ⟨p, hp, hh, hn⟩ := ha
  obtain ⟨q, hq, hh', hn'⟩ := hb
  obtain rfl : p = q := List.inj_on_of_nodup_map hnew.nodup hp hq (hh.trans hh'.symm)
  rw [hn] at hn'
  exact Option.some.inj hn'

theorem spentValue_entry {txhash : UInt256} (h : txhash ≠ 0) (j : ℕ) (out : CTxOut) :
    (spentValue nHeight txhash j out).entry = some (spentValue nHeight txhash j out) := by
  refine if_neg ?_
  show ¬ decide (txhash = 0) = true
  rwa [decide_eq_true_eq]

theorem spent_restored_iff (hall : AppliesAll nHeight M txs uss M') (hnew : NewIds M txs)
    (hid : ∀ tx ∈ txs, tx.hash ≠ 0) (m : CSpentIndexKey → Option CSpentIndexValue) :
    applyBatch m ((txsConnected ⟨true, true⟩ nHeight 0 txs uss).spentIndex.map
        fun e => (e.1, e.2.entry)) = m ↔
      ∀ e ∈ (txsConnected ⟨true, true⟩ nHeight 0 txs uss).spentIndex, m e.1 = some e.2 := by
  have hnd : (((txsConnected ⟨true, true⟩ nHeight 0 txs uss).spentIndex.map
      fun e => (e.1, e.2.entry)).map Prod.fst).Nodup := by
    rw [List.map_map]
    show ((txsConnected ⟨true, true⟩ nHeight 0 txs uss).spentKeys).Nodup
    rw [spentKeys_txsConnected _ nHeight rfl]
    exact hall.spentKeys_nodup hnew
  have hentry : ∀ e ∈ (txsConnected ⟨true, true⟩ nHeight 0 txs uss).spentIndex,
      e.2.entry = some e.2 := by
    intro e he
    obtain ⟨i, x, hx, j, y, -, rfl⟩ := (mem_spentIndex _ nHeight rfl).mp he
    exact spentValue_entry (hid x.1 (List.of_mem_zip (List.mem_of_getElem? hx)).1) j _
  rw [applyBatch_eq_self_iff m hnd]
  constructor
  · intro h e he
    rw [← hentry e he]
    exact h _ (List.mem_map_of_mem he)
  · intro h x hx
    obtain ⟨e, he, rfl⟩ := List.mem_map.mp hx
    show m e.1 = e.2.entry
    rw [hentry e he]
    exact h e he

theorem address_restored_iff (m : CAddressIndexKey → Option ℤ) :
    applyBatch (applyBatch m ((txsConnected ⟨true, true⟩ nHeight 0 txs uss).addressIndex.map
          fun e => (e.1, some e.2)))
        ((txsUndone ⟨true, true⟩ nHeight 0 txs uss).addressIndex.map fun e => (e.1, none)) = m ↔
      ∀ k ∈ (txsUndone ⟨true, true⟩ nHeight 0 txs uss).addressKeys, m k = none := by
  rw [applyBatch_erase_eq_iff]
  · rw [List.map_map]
    rfl
  · rw [List.map_map, List.map_map]
    exact fun k hk => (sameAddressKeys ⟨true, true⟩ nHeight 0 txs uss k).mp hk
  · refine fun k hk => applyBatch_none _ (fun x hx => ?_) hk
    obtain ⟨e, -, rfl⟩ := List.mem_map.mp hx
    rfl

/-- The unspent index after the block has been connected and disconnected. -/
def unspentAfter (nHeight : ℤ) (txs : List CTransaction) (uss : CBlockUndo)
    (m : CAddressUnspentKey → Option CAddressUnspentValue) :
    CAddressUnspentKey → Option CAddressUnspentValue :=
  applyBatch (applyBatch m (txsConnected ⟨true, true⟩ nHeight 0 txs uss).unspentEntries)
    (txsUndone ⟨true, true⟩ nHeight 0 txs uss).unspentEntries

theorem unspent_restored (hcausal : Causal txs uss)
    (hown : ∀ x ∈ txs.zip uss, ∀ y ∈ x.1.vin.zip x.2, MadeBy txs y.1.prevout y.2.txout)
    (m : CAddressUnspentKey → Option CAddressUnspentValue) (hm : ∀ k, OwnKey txs k → m k = none) :
    unspentAfter nHeight txs uss m = m := by
  have hkeys : ∀ k ∈ (txsUndone ⟨true, true⟩ nHeight 0 txs uss).unspentKeys, OwnKey txs k := by
    intro k hk
    rcases of_mem_unspentKeys _ nHeight hk with h | ⟨x, hx, y, hy, type, hashBytes, hs, rfl⟩
    · exact h
    · obtain ⟨p, hp, hh, hn⟩ := hown x hx y hy
      exact ⟨p, hp, _, _, type, hashBytes, hn, hs, by rw [hh]⟩
  refine (applyBatch_erase_eq_iff m ?_ ?_).mpr ?_
  · intro k hk
    rw [map_fst_unspentEntries] at hk ⊢
    exact (sameUnspentKeys ⟨true, true⟩ nHeight 0 txs uss k).mp hk
  · intro k hk
    rw [map_fst_unspentEntries] at hk
    exact ownKey_erased ⟨true, true⟩ nHeight rfl _ hcausal (hkeys k hk)
  · intro k hk
    rw [map_fst_unspentEntries] at hk
    exact hm k (hkeys k hk)

theorem IndexesRestorable.madeBy (h : IndexesRestorable db nHeight txs)
    (hall : AppliesAll nHeight M txs uss M') (hnew : NewIds M txs) :
    ∀ x ∈ txs.zip uss, ∀ y ∈ x.1.vin.zip x.2, MadeBy txs y.1.prevout y.2.txout := by
  intro x hx y hy
  obtain ⟨i, hi⟩ := List.getElem?_of_mem hx
  obtain ⟨j, hj⟩ := List.getElem?_of_mem hy
  obtain ⟨out, ⟨p, hp, hh, -⟩, -⟩ := h.spend i x.1 j y.1 (List.getElem?_zip_eq_some.mp hi).1
    (hall.isCoinBase_of_record x hx y hy) (List.getElem?_zip_eq_some.mp hj).1
  rcases hall.sources x hx y hy with ho | hmade
  · rw [← hh, hnew.empty p hp] at ho
    cases ho
  · exact hmade

theorem indexes_restored_iff (hall : AppliesAll nHeight M txs uss M') (hnew : NewIds M txs)
    (hid : ∀ tx ∈ txs, tx.hash ≠ 0) (hcons : IndexConsistent db M) :
    ((writeIndexes ⟨true, true⟩ db (txsConnected ⟨true, true⟩ nHeight 0 txs uss)).eraseAddressIndex
        (txsUndone ⟨true, true⟩ nHeight 0 txs uss).addressIndex).updateAddressUnspentIndex
          (txsUndone ⟨true, true⟩ nHeight 0 txs uss).addressUnspentIndex = db ↔
      IndexesRestorable db nHeight txs := by
  have hcausal := hall.causal hnew
  have hparts : ∀ a b c, CBlockTreeDB.mk a b c = db ↔
      a = db.addressIndex ∧ b = db.addressUnspentIndex ∧ c = db.spentIndex := by
    intro a b c
    cases db
    simp
  refine (hparts _ (unspentAfter nHeight txs uss db.addressUnspentIndex) _).trans ?_
  constructor
  · rintro ⟨ha, hu, hs⟩
    have ha' := (address_restored_iff db.addressIndex).mp ha
    have hs' := (spent_restored_iff hall hnew hid db.spentIndex).mp hs
    refine ⟨fun i tx k out type hashBytes htx hout haddr => ?_,
      fun i tx j input htx hcb hj => ?_⟩
    · obtain ⟨us, hz⟩ := exists_zip hall.length_eq htx
      refine ⟨ha' _ ((mem_addressKeys _ nHeight rfl).mpr
        ⟨i, (tx, us), hz, .inl ⟨k, out, hout, type, hashBytes, haddr, rfl⟩⟩), ?_⟩
      rw [← congrFun hu]
      exact ownKey_erased ⟨true, true⟩ nHeight rfl _ hcausal
        ⟨tx, List.mem_of_getElem? htx, k, out, type, hashBytes, hout, haddr, rfl⟩
    · obtain ⟨us, hz⟩ := exists_zip hall.length_eq htx
      have hmem := List.mem_of_getElem? hz
      obtain ⟨u, hy⟩ := hall.record_at (tx, us) hmem hcb hj
      have hspent := hs' _ ((mem_spentIndex _ nHeight rfl).mpr ⟨i, (tx, us), hz, j, _, hy, rfl⟩)
      refine ⟨u.txout, ?_, fun type hashBytes haddr => ?_, hspent⟩
      · rcases hall.sources (tx, us) hmem _ (List.mem_of_getElem? hy) with ho | hmade
        -- an output that was unspent before the block had no spent entry
        · rw [hcons.spent _ _ (by rw [ho]; simp)] at hspent
          cases hspent
        · exact hmade
      · exact ha' _ ((mem_addressKeys _ nHeight rfl).mpr
          ⟨i, (tx, us), hz, .inr ⟨j, _, hy, type, hashBytes, haddr, rfl⟩⟩)
  · intro h
    have hown := h.madeBy hall hnew
    -- the output that the condition names is the one that was spent
    have hsame : ∀ i x j y, (txs.zip uss)[i]? = some x → (x.1.vin.zip x.2)[j]? = some y →
        (∀ type hashBytes, scriptAddress y.2.txout.scriptPubKey = some (type, hashBytes) →
          db.addressIndex ⟨type, hashBytes, nHeight, i, x.1.hash, j, true⟩ = none) ∧
        db.spentIndex ⟨y.1.prevout.hash, y.1.prevout.n⟩
          = some (spentValue nHeight x.1.hash j y.2.txout) := by
      intro i x j y hi hj
      have hx := List.mem_of_getElem? hi
      have hy := List.mem_of_getElem? hj
      obtain ⟨out, hmade, haddr, hspent⟩ := h.spend i x.1 j y.1
        (List.getElem?_zip_eq_some.mp hi).1 (hall.isCoinBase_of_record x hx y hy)
        (List.getElem?_zip_eq_some.mp hj).1
      obtain rfl := hmade.unique hnew (hown x hx y hy)
      exact ⟨haddr, hspent⟩
    refine ⟨(address_restored_iff db.addressIndex).mpr fun k hk => ?_,
      unspent_restored hcausal hown _ fun k hk => ?_,
      (spent_restored_iff hall hnew hid db.spentIndex).mpr fun e he => ?_⟩
    · obtain ⟨i, x, hi, hcase⟩ := (mem_addressKeys _ nHeight rfl).mp hk
      rcases hcase with ⟨n, out, hout, type, hashBytes, haddr, rfl⟩
        | ⟨j, y, hj, type, hashBytes, haddr, rfl⟩
      · exact (h.receive i x.1 n out type hashBytes (List.getElem?_zip_eq_some.mp hi).1 hout
          haddr).1
      · exact (hsame i x j y hi hj).1 type hashBytes haddr
    · obtain ⟨tx, htx, n, out, type, hashBytes, hout, haddr, rfl⟩ := hk
      obtain ⟨i, hi⟩ := List.getElem?_of_mem htx
      exact (h.receive i tx n out type hashBytes hi hout haddr).2
    · obtain ⟨i, x, hi, j, y, hj, rfl⟩ := (mem_spentIndex _ nHeight rfl).mp he
      exact (hsame i x j y hi hj).2

end

theorem disconnectBlock_indexes {tx : CTransaction} {txs : List CTransaction}
    {uss : CBlockUndo} {pindex : BlockPos} {w : CCoinsViewCache} (db : CBlockTreeDB)
    (hrec : RecordsOK txs uss) (hw : w.toView.Coherent)
    (hbest : w.getBestBlock.1 = pindex.hash) :
    indexesAfter db (disconnectBlock ⟨true, true⟩ (tx :: txs) pindex (some uss) w db false)
      = (db.eraseAddressIndex
          (txsUndone ⟨true, true⟩ pindex.nHeight 0 (tx :: txs) ([] :: uss)).addressIndex
        ).updateAddressUnspentIndex
          (txsUndone ⟨true, true⟩ pindex.nHeight 0 (tx :: txs) ([] :: uss)).addressUnspentIndex := by
  have hstart : (DisconnectState.mk w.getBestBlock.2 true .empty).view.toView.Coherent :=
    (getBestBlock_spec w hw).coherent
  obtain ⟨st, hst, -, hb⟩ := undoTxs_batch ⟨true, true⟩ pindex.nHeight hrec 1 hstart
  have hlen : uss.length + 1 = (tx :: txs).length := by simp [hrec.length_eq]
  -- the coinbase has outputs only
  have hbatch : (undoOutputs ⟨true, true⟩ pindex.nHeight 0 tx st).batch
      = txsUndone ⟨true, true⟩ pindex.nHeight 0 (tx :: txs) ([] :: uss) := by
    rw [undoOutputs_batch, hb, IndexBatch.empty_append]
    show _ = txsUndone _ _ 1 txs uss ++ txUndone _ _ 0 tx []
    have hin : inputsUndone ⟨true, true⟩ pindex.nHeight 0 tx.hash 0 tx.vin [] = .empty := by
      rw [inputsUndone, List.zip_nil_right]
      rfl
    rw [txUndone, hin, IndexBatch.append_empty]
  simp only [disconnectBlock, hbest, ne_eq, not_true_eq_false, if_false, hlen, hst, hbatch,
    indexesAfter, Bool.false_eq_true, if_true]

/-- **When `DisconnectBlock` restores the indexes.**  Both indexes are kept, and fit the
coins of `V`.  A block is connected on a new cache over `V`, and disconnected on a view
that stands at the block.  The three maps are as they were before exactly if the block is
the genesis block or the indexes are restorable. -/
theorem disconnectBlock_restores_indexes_iff (env : ConnectBlockEnv) (V : CCoinsView)
    (block : CBlock) (pindex : ConnectPos) (db : CBlockTreeDB) (c : Connected)
    (w : CCoinsViewCache) (hV : V.Coherent) (hshape : BlockShapeOK block.vtx)
    (hinj : HashesInputs block.vtx) (hid : ∀ tx ∈ block.vtx, tx.hash ≠ 0)
    (hnew : fEnforceBIP30 env pindex = false → ∀ tx ∈ block.vtx, V.coinsAt tx.hash = .empty)
    (hcons : IndexConsistent db V.coinsAt)
    (hconnect : connectBlock env ⟨true, true⟩ block pindex (.new V) db = .ok c)
    (hw : w.toView.Coherent) (hbest : w.getBestBlock.1 = pindex.hash) :
    indexesAfter c.db
        (disconnectBlock ⟨true, true⟩ block.vtx pindex.toBlockPos c.blockUndo w c.db false) = db ↔
      env.isGenesisBlock block.toCBlockHeader = true ∨
        IndexesRestorable db pindex.nHeight block.vtx := by
  rcases connectBlock_spec env _ hV hnew hconnect with
    ⟨hg, hundo, hdb⟩ | ⟨hg, hids, uss, M', hall, hundo, hdb⟩
  · -- there is no undo data, so nothing is disconnected
    refine iff_of_true ?_ (.inl hg)
    simp [hundo, hdb, disconnectBlock, hbest, indexesAfter]
  · obtain ⟨⟨tx, txs, hvtx, hcb, htxs⟩, -⟩ := hshape
    rw [hvtx] at hall hids hinj hid hdb ⊢
    cases hall with
    | @cons _ M₁ _ _ us _ uss hap hrest =>
      obtain ⟨M₂, -, hcase⟩ := hap.elim
      obtain ⟨-, rfl, -⟩ := hcase.resolve_right fun h => by rw [hcb] at h; cases h.1
      have hall := AppliesAll.cons hap hrest
      have hids' : NewIds V.coinsAt (tx :: txs) :=
        ⟨(hall.txids_nodup hids htxs hinj).nodup, hids⟩
      rw [hundo, List.tail_cons, disconnectBlock_indexes c.db
        (hrest.recordsOK fun t ht => (htxs t ht).1) hw hbest, hdb,
        indexes_restored_iff hall hids' hid hcons, hg]
      simp

/-! #### A block that spends an output from before -/

def zeroScript : CScript := getScriptForDestination (.keyID .null)

/-- Transaction 5, mined at height 12, has an address output and another one. -/
def spendDB : CCoinsView :=
  .db ⟨fun t => if t = 5 then some (CCoins.cleaned ⟨false, [.of 7 zeroScript, .of 9 []], 12, 1⟩)
    else none, 4⟩

/-- The indexes hold the unspent entry of that output and nothing else. -/
def spendIndexes : CBlockTreeDB where
  addressIndex := fun _ => none
  addressUnspentIndex := fun k =>
    if k = ⟨1, .null, 5, 0⟩ then some ⟨7, zeroScript, 12⟩ else none
  spentIndex := fun _ => none

/-- A node at height 19 that finds nothing wrong with scripts and payees. -/
def spendEnv : ConnectBlockEnv where
  toCheckBlockEnv := { cutOffEnv with tip := some ⟨19, 0x1e0ffff0⟩ }
  isGenesisBlock := fun h => h.hashPrevBlock = 0
  BIP34Hash := 0
  sequenceLocks := fun _ _ => true
  nSpendHeight := 20
  nStoneHeight := 1000
  isInputBanned := fun _ _ => false
  checkScripts := fun _ _ => .ok ()
  controlWait := fun _ => true
  isBlockValueValid := fun block _ blockReward =>
    block.vtx.all fun tx => !tx.isCoinBase || (tx.vout.map CTxOut.nValue).sum ≤ blockReward
  isBlockPayeeValid := fun _ _ _ => true

/-- A coinbase, and a transaction that spends the address output of transaction 5. -/
def spendBlock : CBlock where
  nVersion := 1
  hashPrevBlock := 4
  hashMerkleRoot := 3
  nTime := 1600000000
  nBits := 0x1e0ffff0
  nNonce := 0
  vtx :=
    [⟨1, 1, [⟨.null, [0, 0], 0⟩], [.of COIN []], 0⟩, ⟨2, 1, [⟨⟨5, 0⟩, [], 0⟩], [.of 7 []], 0⟩]
  fChecked := false

def spendPos : ConnectPos where
  hash := 9
  nHeight := 20
  hashPrev := 4
  nTime := 1600000000
  nPrevBits := 0x1e0ffff0
  nPrevHeight := 19
  bip34Ancestor := none

theorem spend_connects :
    ∃ c, connectBlock spendEnv ⟨true, true⟩ spendBlock spendPos (.new spendDB) spendIndexes
        = .ok c ∧
      (indexesAfter c.db (disconnectBlock ⟨true, true⟩ spendBlock.vtx spendPos.toBlockPos
          c.blockUndo c.view c.db false)).spentIndex ⟨5, 0⟩ = some ⟨2, 0, 20, 7, 1, .null⟩ ∧
      (indexesAfter c.db (disconnectBlock ⟨true, true⟩ spendBlock.vtx spendPos.toBlockPos
          c.blockUndo c.view c.db false)).addressUnspentIndex ⟨1, .null, 5, 0⟩
        = some ⟨7, zeroScript, 0⟩ := by
  have h : (match connectBlock spendEnv ⟨true, true⟩ spendBlock spendPos (.new spendDB)
      spendIndexes with
    | .error _ => none
    | .ok c => some ((indexesAfter c.db (disconnectBlock ⟨true, true⟩ spendBlock.vtx
          spendPos.toBlockPos c.blockUndo c.view c.db false)).spentIndex ⟨5, 0⟩,
        (indexesAfter c.db (disconnectBlock ⟨true, true⟩ spendBlock.vtx spendPos.toBlockPos
          c.blockUndo c.view c.db false)).addressUnspentIndex ⟨1, .null, 5, 0⟩))
      = some (some ⟨2, 0, 20, 7, 1, .null⟩, some ⟨7, zeroScript, 0⟩) := by
    decide +kernel
  split at h
  · cases h
  next c hc =>
    obtain ⟨h₁, h₂⟩ := Prod.mk.inj (Option.some.inj h)
    exact ⟨c, hc, h₁, h₂⟩

theorem spend_consistent : IndexConsistent spendIndexes spendDB.coinsAt := by
  refine ⟨fun t n out type hashBytes ho hs => ?_, fun t n _ => rfl⟩
  by_cases ht : t = 5
  · subst ht
    match n, ho with
    | 0, ho =>
      obtain rfl : CTxOut.of 7 zeroScript = out := Option.some.inj ho
      obtain ⟨rfl, rfl⟩ : type = 1 ∧ hashBytes = .null := by
        have h₁ : scriptAddress zeroScript = some (1, .null) := by decide +kernel
        have h₂ : scriptAddress zeroScript = some (type, hashBytes) := hs
        rw [h₁] at h₂
        obtain ⟨h₃, h₄⟩ := Prod.mk.inj (Option.some.inj h₂)
        exact ⟨h₃.symm, h₄.symm⟩
      decide +kernel
    | 1, ho =>
      obtain rfl : CTxOut.of 9 [] = out := Option.some.inj ho
      rw [show scriptAddress (CTxOut.of 9 []).scriptPubKey = none by decide +kernel] at hs
      cases hs
    | n + 2, ho => cases ho
  · have hempty : spendDB.coinsAt t = .empty := by
      show shownCoins (if t = 5 then _ else none) = _
      rw [if_neg ht]
      rfl
    rw [hempty] at ho
    cases ho

/-- Consistent indexes and a block that is connected and disconnected again: a spent entry
is left, and the unspent entry comes back without its height. -/
theorem disconnectBlock_misses_indexes :
    IndexConsistent spendIndexes spendDB.coinsAt ∧
    ∃ c, connectBlock spendEnv ⟨true, true⟩ spendBlock spendPos (.new spendDB) spendIndexes
        = .ok c ∧
      indexesAfter c.db (disconnectBlock ⟨true, true⟩ spendBlock.vtx spendPos.toBlockPos
          c.blockUndo c.view c.db false) ≠ spendIndexes := by
  obtain ⟨c, hc, hspent, -⟩ := spend_connects
  refine ⟨spend_consistent, c, hc, fun h => ?_⟩
  rw [h] at hspent
  cases hspent

theorem disconnectBlock_restores_indexes_iff_spend :
    ∃ c, connectBlock spendEnv ⟨true, true⟩ spendBlock spendPos (.new spendDB) spendIndexes
        = .ok c ∧
      (indexesAfter c.db (disconnectBlock ⟨true, true⟩ spendBlock.vtx spendPos.toBlockPos
          c.blockUndo (.new (.db ⟨fun _ => none, 9⟩)) c.db false) = spendIndexes ↔
        spendEnv.isGenesisBlock spendBlock.toCBlockHeader = true ∨
          IndexesRestorable spendIndexes spendPos.nHeight spendBlock.vtx) := by
  obtain ⟨c, hc, -, -⟩ := spend_connects
  refine ⟨c, hc, disconnectBlock_restores_indexes_iff spendEnv spendDB spendBlock spendPos
    spendIndexes c _ trivial ⟨⟨_, _, rfl, ?_⟩, ?_⟩ ?_ ?_ ?_ spend_consistent hc
    (new_coherent trivial) rfl⟩
  · decide +kernel
  · decide +kernel
  · unfold HashesInputs
    decide +kernel
  · decide +kernel
  · intro _
    decide +kernel

end Stonecoin
