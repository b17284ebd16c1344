/-
Applying a transaction to a coin view and taking it back: `UpdateCoins` and
`ApplyTxInUndo` of `main.cpp`, and the undo records of `undo.h`.

An undo record holds the spent output.  The height, version and coinbase flag are
recorded only with the input that leaves the coins without unspent outputs, and a zero
height marks the other records.
-/
import Stonecoin.CoinOutputs
import Stonecoin.CoinsCache

namespace Stonecoin

/-! ### Undo records -/

structure CTxInUndo where
  txout : CTxOut
  fCoinBase : Bool
  nHeight : ℕ
  nVersion : ℤ
deriving DecidableEq, Repr

abbrev CTxUndo := List CTxInUndo

/-- `CBlockUndo`: the records of all transactions but the coinbase. -/
abbrev CBlockUndo := List CTxUndo

/-- A signed number stored in an `unsigned int`. -/
def toUInt32 (i : ℤ) : ℕ := (i % 4294967296).toNat

def toInt32 (n : ℕ) : ℤ := if n < 2147483648 then n else (n : ℤ) - 4294967296

theorem toInt32_toUInt32 {h : ℤ} (h0 : 0 ≤ h) (hlt : h < 2147483648) :
    toInt32 (toUInt32 h) = h := by
  unfold toInt32 toUInt32
  split <;> omega

theorem toUInt32_ne_zero {h : ℤ} (h0 : 0 < h) (hlt : h < 2147483648) : toUInt32 h ≠ 0 := by
  unfold toUInt32
  omega

/-- The record `UpdateCoins` makes of spending output `n`, which holds `o`. -/
def CTxInUndo.ofSpend (c : CCoins) (n : ℕ) (o : CTxOut) : CTxInUndo :=
  let c' := c.spend n
  if c'.vout.length = 0 then ⟨o, c'.fCoinBase, toUInt32 c'.nHeight, c'.nVersion⟩
  else ⟨o, false, 0, 0⟩

/-! ### `UpdateCoins` -/

/-- The input loop of `UpdateCoins`; `none` is the failed assertion. -/
def spendInputs : List CTxIn → CCoinsViewCache → Option (CTxUndo × CCoinsViewCache)
  | [], v => some ([], v)
  | txin :: vin, v =>
    let m := v.modifyCoins txin.prevout.hash
    let coins := m.entry.coins.1
    match coins.outputAt txin.prevout.n with
    | none => none
    | some o =>
      match spendInputs vin (m.release (coins.spend txin.prevout.n)) with
      | none => none
      | some (undo, v') => some (.ofSpend coins txin.prevout.n o :: undo, v')

/-- `UpdateCoins`: spend the inputs, then add the outputs, with `ModifyNewCoins` except
for a coinbase. -/
def updateCoins (tx : CTransaction) (inputs : CCoinsViewCache) (nHeight : ℤ) :
    Option (CTxUndo × CCoinsViewCache) :=
  if tx.isCoinBase then
    some ([], (inputs.modifyCoins tx.hash).release (.fromTx tx nHeight))
  else
    match spendInputs tx.vin inputs with
    | none => none
    | some (txundo, v) => some (txundo, (v.modifyNewCoins tx.hash).release (.fromTx tx nHeight))

/-! ### `ApplyTxInUndo` -/

/-- The coins the output is put back into: new ones with the recorded data if the record
has a height. -/
def CTxInUndo.base (undo : CTxInUndo) (coins : CCoins) : CCoins :=
  if undo.nHeight ≠ 0 then ⟨undo.fCoinBase, [], toInt32 undo.nHeight, undo.nVersion⟩ else coins

/-- The part of `fClean`: the record fits the coins found. -/
def CTxInUndo.fits (undo : CTxInUndo) (coins : CCoins) (n : ℕ) : Bool :=
  (if undo.nHeight ≠ 0 then coins.isPruned else !coins.isPruned) &&
    !(undo.base coins).isAvailable n

/-- Grow the vector if necessary and store the output. -/
def CCoins.putOutput (coins : CCoins) (n : ℕ) (o : CTxOut) : CCoins :=
  { coins with vout := (resizeOuts coins.vout (n + 1)).set n o }

def applyTxInUndo (undo : CTxInUndo) (view : CCoinsViewCache) (out : COutPoint) :
    Bool × CCoinsViewCache :=
  let m := view.modifyCoins out.hash
  let coins := m.entry.coins.1
  (undo.fits coins out.n, m.release ((undo.base coins).putOutput out.n undo.txout))

/-! ### Taking back a spend, on coins -/

namespace CCoins

theorem outputAt_putOutput (c : CCoins) (n : ℕ) {o : CTxOut} (ho : o.isNull = false) (i : ℕ) :
    (c.putOutput n o).outputAt i = if i = n then some o else c.outputAt i := by
  unfold putOutput outputAt
  rw [outAt_set (by simp), outAt_resizeOuts]
  simp [ho]

theorem putOutput_canonical {c : CCoins} (h : c.Canonical) (n : ℕ) {o : CTxOut}
    (ho : o.isNull = false) : (c.putOutput n o).cleanup.Canonical := by
  refine cleanup_canonical fun p hp hnull => ?_
  rcases List.mem_or_eq_of_mem_set hp with hp' | rfl
  · rcases List.mem_append.mp hp' with hp'' | hp''
    · exact h.null p hp'' hnull
    · exact (List.mem_replicate.mp hp'').2
  · rw [ho] at hnull
    cases hnull

end CCoins

theorem CTxInUndo.fits_norm (undo : CTxInUndo) (c : CCoins) (n : ℕ) :
    undo.fits c.norm n = undo.fits c n := by
  unfold CTxInUndo.fits CTxInUndo.base
  by_cases hz : undo.nHeight = 0
  · by_cases hp : c.isPruned = true
    · simp [hz, hp]
    · simp [hz, CCoins.norm_of_not_isPruned (c := c) (by simpa using hp)]
  · simp [hz]

theorem CTxInUndo.base_norm {undo : CTxInUndo} {c : CCoins} {n : ℕ} (h : undo.fits c n = true) :
    undo.base c.norm = undo.base c := by
  unfold CTxInUndo.fits at h
  unfold CTxInUndo.base
  by_cases hz : undo.nHeight = 0
  · have hp : c.isPruned = false := by
      simp only [hz, ne_eq, not_true_eq_false, if_false, Bool.and_eq_true] at h
      simpa using h.1
    simp [hz, CCoins.norm_of_not_isPruned hp]
  · simp [hz]

/-- The height of coins with unspent outputs is a positive `int`. -/
def CCoins.HeightOK (c : CCoins) : Prop :=
  c.isPruned = false → 0 < c.nHeight ∧ c.nHeight < 2147483648

theorem restore_spend {c d : CCoins} {n : ℕ} {o : CTxOut} (ho : c.outputAt n = some o)
    (hh : c.HeightOK) (hd : CCoins.Same d (c.spend n)) :
    (CTxInUndo.ofSpend c n o).fits d n = true ∧
      CCoins.Same (((CTxInUndo.ofSpend c n o).base d).putOutput n o) c := by
  have hnull : o.isNull = false := (outAt_eq_some.mp ho).2
  obtain ⟨hf₁, hf₂, hf₃⟩ := CCoins.spend_fields (c := c) (n := n)
  obtain ⟨hpos, hlt⟩ := hh (CCoins.not_isPruned_of_outputAt ho)
  have hpr : (c.spend n).isPruned = true ↔ (c.spend n).vout.length = 0 := by
    rw [(CCoins.spend_clean ho).isPruned_iff, List.length_eq_zero_iff]
  by_cases hz : (c.spend n).vout.length = 0
  · -- the last unspent output: the record carries the data of the transaction
    have hrec : CTxInUndo.ofSpend c n o = ⟨o, c.fCoinBase, toUInt32 c.nHeight, c.nVersion⟩ := by
      simp [CTxInUndo.ofSpend, hz, hf₁, hf₂, hf₃]
    have hne : toUInt32 c.nHeight ≠ 0 := toUInt32_ne_zero hpos hlt
    have hdp : d.isPruned = true := hd.isPruned_eq.trans (hpr.mpr hz)
    rw [hrec]
    refine ⟨by simp [CTxInUndo.fits, CTxInUndo.base, hne, hdp, CCoins.isAvailable], ?_, ?_⟩
    · intro i
      rw [CCoins.outputAt_putOutput _ _ hnull]
      by_cases hi : i = n
      · simp [hi, ho]
      · have hspent := CCoins.isPruned_iff.mp (hpr.mpr hz) i
        rw [CCoins.outputAt_spend ho, if_neg hi] at hspent
        rw [if_neg hi, hspent]
        simp [CTxInUndo.base, hne, CCoins.outputAt]
    · intro _
      simp [CTxInUndo.base, hne, CCoins.putOutput, toInt32_toUInt32 hpos.le hlt]
  · -- other outputs are left, and with them the data
    have hrec : CTxInUndo.ofSpend c n o = ⟨o, false, 0, 0⟩ := by
      simp [CTxInUndo.ofSpend, hz]
    have hdp : d.isPruned = false := by
      rw [hd.isPruned_eq]
      by_contra hcon
      exact hz (hpr.mp (by simpa using hcon))
    have hdn : d.outputAt n = none := by
      rw [hd.outputs, CCoins.outputAt_spend ho, if_pos rfl]
    rw [hrec]
    refine ⟨by simp [CTxInUndo.fits, CTxInUndo.base, hdp, CCoins.isAvailable_eq, hdn], ?_, ?_⟩
    · intro i
      rw [CCoins.outputAt_putOutput _ _ hnull]
      by_cases hi : i = n
      · simp [hi, ho]
      · simp [hi, CTxInUndo.base, hd.outputs, CCoins.outputAt_spend ho]
    · intro _
      obtain ⟨h₁, h₂, h₃⟩ := hd.fields hdp
      exact ⟨h₁.trans hf₁, h₂.trans hf₂, h₃.trans hf₃⟩

/-! ### What applying a transaction does to the coins shown -/

/-- The inputs are spent one after the other, each from an unspent output. -/
inductive Spends : (UInt256 → CCoins) → List CTxIn → CTxUndo → (UInt256 → CCoins) → Prop
  | nil (M : UInt256 → CCoins) : Spends M [] [] M
  | cons {M M' : UInt256 → CCoins} {i : CTxIn} {is : List CTxIn} {o : CTxOut} {us : CTxUndo} :
      (M i.prevout.hash).outputAt i.prevout.n = some o →
      Spends (Function.update M i.prevout.hash ((M i.prevout.hash).spend i.prevout.n).norm)
        is us M' →
      Spends M (i :: is) (.ofSpend (M i.prevout.hash) i.prevout.n o :: us) M'

def createdCoins (tx : CTransaction) (nHeight : ℤ) : CCoins := (CCoins.fromTx tx nHeight).norm

/-- The inputs of a transaction other than a coinbase are spent, its outputs added. -/
inductive Applies (nHeight : ℤ) :
    (UInt256 → CCoins) → CTransaction → CTxUndo → (UInt256 → CCoins) → Prop
  | coinbase {M : UInt256 → CCoins} {tx : CTransaction} (hcb : tx.isCoinBase = true) :
      Applies nHeight M tx [] (Function.update M tx.hash (createdCoins tx nHeight))
  | spending {M M₁ : UInt256 → CCoins} {tx : CTransaction} {us : CTxUndo}
      (hcb : tx.isCoinBase = false) (hsp : Spends M tx.vin us M₁) :
      Applies nHeight M tx us (Function.update M₁ tx.hash (createdCoins tx nHeight))

theorem spendInputs_spec : ∀ (vin : List CTxIn) {v v' : CCoinsViewCache} {undo : CTxUndo},
    v.toView.Coherent → spendInputs vin v = some (undo, v') →
      v'.toView.Coherent ∧ v'.base.maps = v.base.maps ∧
        Spends v.toView.coinsAt vin undo v'.toView.coinsAt := by
  intro vin
  induction vin with
  | nil =>
    rintro v v' undo hv ⟨⟩
    exact ⟨hv, rfl, .nil _⟩
  | cons i vin ih =>
    intro v v' undo hv h
    obtain ⟨hentry, hmod⟩ := modifyCoins_spec v i.prevout.hash hv
    simp only [spendInputs] at h
    cases ho : (v.modifyCoins i.prevout.hash).entry.coins.1.outputAt i.prevout.n with
    | none => simp [ho] at h
    | some o =>
      rw [CCoins.norm_eq_self ho] at hentry
      have hm := hmod ((v.modifyCoins i.prevout.hash).entry.coins.1.spend i.prevout.n)
      simp only [ho] at h
      cases hr : spendInputs vin ((v.modifyCoins i.prevout.hash).release
          ((v.modifyCoins i.prevout.hash).entry.coins.1.spend i.prevout.n)) with
      | none => simp [hr] at h
      | some r =>
        obtain ⟨us, w⟩ := r
        simp only [hr, Option.some.injEq, Prod.mk.injEq] at h
        obtain ⟨rfl, rfl⟩ := h
        obtain ⟨hco, hbelow, hsp⟩ := ih hm.coherent hr
        rw [hm.shows_eq, (CCoins.spend_clean ho).cleanup_eq] at hsp
        refine ⟨hco, hbelow.trans hm.below_eq, ?_⟩
        rw [hentry] at ho hsp ⊢
        exact .cons ho hsp

theorem updateCoins_applies {tx : CTransaction} {v v' : CCoinsViewCache} {nHeight : ℤ}
    {undo : CTxUndo} (hv : v.toView.Coherent) (hnew : v.base.coinsAt tx.hash = .empty)
    (h : updateCoins tx v nHeight = some (undo, v')) :
    v'.toView.Coherent ∧ v'.base.maps = v.base.maps ∧
      Applies nHeight v.toView.coinsAt tx undo v'.toView.coinsAt := by
  have hclean := (CCoins.fromTx_clean tx nHeight).cleanup_eq
  unfold updateCoins at h
  by_cases hcb : tx.isCoinBase = true
  · simp only [hcb, if_true, Option.some.injEq, Prod.mk.injEq] at h
    obtain ⟨rfl, rfl⟩ := h
    have hm := (modifyCoins_spec v tx.hash hv).2 (.fromTx tx nHeight)
    refine ⟨hm.coherent, hm.below_eq, ?_⟩
    rw [hm.shows_eq, hclean]
    exact .coinbase hcb
  · simp only [hcb, Bool.false_eq_true, if_false] at h
    cases hr : spendInputs tx.vin v with
    | none => simp [hr] at h
    | some r =>
      obtain ⟨us, w⟩ := r
      simp only [hr, Option.some.injEq, Prod.mk.injEq] at h
      obtain ⟨rfl, rfl⟩ := h
      obtain ⟨hco, hbelow, hsp⟩ := spendInputs_spec tx.vin hv hr
      have hbase : w.base.coinsAt tx.hash = .empty := by
        rw [maps_eq_cons w.base, maps_eq_cons v.base] at hbelow
        rw [(List.cons.inj hbelow).1, hnew]
      have hm := modifyNewCoins_spec w tx.hash hco hbase (.fromTx tx nHeight)
      refine ⟨hm.coherent, hm.below_eq.trans hbelow, ?_⟩
      rw [hm.shows_eq, hclean]
      exact .spending (by simpa using hcb) hsp

theorem applyTxInUndo_spec {undo : CTxInUndo} {v : CCoinsViewCache} {out : COutPoint}
    (hv : v.toView.Coherent) (hfit : undo.fits (v.toView.coinsAt out.hash) out.n = true) :
    (applyTxInUndo undo v out).1 = true ∧
      Modifies v out.hash
        ((undo.base (v.toView.coinsAt out.hash)).putOutput out.n undo.txout).cleanup.norm
        (applyTxInUndo undo v out).2 := by
  obtain ⟨hentry, hmod⟩ := modifyCoins_spec v out.hash hv
  rw [← hentry, CTxInUndo.fits_norm] at hfit
  rw [← hentry, CTxInUndo.base_norm hfit]
  exact ⟨hfit, hmod _⟩

end Stonecoin
