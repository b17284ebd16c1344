/-
The coins of one transaction (`class CCoins` of `coins.h`): the outputs that are still
unspent, with height, version and coinbase flag.

The source compares coins with an `operator==` that identifies all pruned coins.
`CCoins.norm` picks one representative of each class, so that "the same coins" is an
equation.

Clean coins have no spent output at the end; every operation of the source that
changes coins restores this (`cleanup_clean`).
-/
import Stonecoin.Transaction

namespace Stonecoin

structure CCoins where
  fCoinBase : Bool
  vout : List CTxOut
  nHeight : ℤ
  nVersion : ℤ
deriving DecidableEq, Repr

namespace CCoins

/-- The empty constructor, and what `Clear` leaves. -/
def empty : CCoins := ⟨false, [], 0, 0⟩

def isPruned (c : CCoins) : Bool := c.vout.all CTxOut.isNull

/-- The loop of `CCoins::Cleanup`: spent outputs at the end are dropped. -/
def dropNulls : List CTxOut → List CTxOut
  | [] => []
  | o :: os =>
    match dropNulls os with
    | [] => if o.isNull then [] else [o]
    | os' => o :: os'

def cleanup (c : CCoins) : CCoins := { c with vout := dropNulls c.vout }

def clearUnspendable (c : CCoins) : CCoins :=
  cleanup { c with vout := c.vout.map fun o => if isUnspendable o.scriptPubKey then .null else o }

def fromTx (tx : CTransaction) (nHeight : ℤ) : CCoins :=
  clearUnspendable ⟨tx.isCoinBase, tx.vout, nHeight, tx.nVersion⟩

def isAvailable (c : CCoins) (nPos : ℕ) : Bool :=
  match c.vout[nPos]? with
  | none => false
  | some o => !o.isNull

/-- `CCoins::Spend`; the coins are unchanged when the output is not available. -/
def spend (c : CCoins) (nPos : ℕ) : CCoins :=
  if c.isAvailable nPos then cleanup { c with vout := c.vout.set nPos .null } else c

def eqv (a b : CCoins) : Bool := (a.isPruned && b.isPruned) || a = b

/-! ### Representatives -/

/-- The representative of the coins under `operator==`: pruned counts as absent. -/
def norm (c : CCoins) : CCoins := if c.isPruned then empty else c

@[simp] theorem empty_isPruned : empty.isPruned = true := rfl

@[simp] theorem norm_empty : empty.norm = empty := rfl

@[simp] theorem norm_norm (c : CCoins) : c.norm.norm = c.norm := by
  by_cases h : c.isPruned = true
  · simp [norm, h]
  · simp [norm, h]

theorem norm_eq_empty_iff {c : CCoins} : c.norm = empty ↔ c.isPruned = true := by
  unfold norm
  by_cases h : c.isPruned = true
  · simp [h]
  · simp only [h, Bool.false_eq_true, if_false, iff_false]
    rintro rfl
    exact h rfl

@[simp] theorem isPruned_norm (c : CCoins) : c.norm.isPruned = c.isPruned := by
  unfold norm
  by_cases h : c.isPruned = true
  · simp [h]
  · simp [h]

theorem norm_of_not_isPruned {c : CCoins} (h : c.isPruned = false) : c.norm = c := by
  simp [norm, h]

/-! ### Clean coins -/

/-- No spent output stands at the end. -/
def Clean (c : CCoins) : Prop := dropNulls c.vout = c.vout

theorem dropNulls_idem : ∀ os : List CTxOut, dropNulls (dropNulls os) = dropNulls os := by
  intro os
  induction os with
  | nil => rfl
  | cons o os ih =>
    simp only [dropNulls]
    cases e : dropNulls os with
    | nil =>
      by_cases h : o.isNull = true
      · simp [h, dropNulls]
      · simp [h, dropNulls]
    | cons p ps =>
      rw [e] at ih
      simp only [dropNulls] at ih ⊢
      rw [ih]

theorem cleanup_clean (c : CCoins) : c.cleanup.Clean := dropNulls_idem c.vout

theorem empty_clean : empty.Clean := rfl

theorem Clean.cleanup_eq {c : CCoins} (h : c.Clean) : c.cleanup = c := by
  unfold cleanup
  rw [h]

theorem all_null_dropNulls (os : List CTxOut) :
    (dropNulls os).all CTxOut.isNull = os.all CTxOut.isNull := by
  induction os with
  | nil => rfl
  | cons o os ih =>
    simp only [dropNulls, List.all_cons, ← ih]
    cases e : dropNulls os with
    | nil => by_cases h : o.isNull = true <;> simp [h]
    | cons p ps => simp

@[simp] theorem isPruned_cleanup (c : CCoins) : c.cleanup.isPruned = c.isPruned :=
  all_null_dropNulls c.vout

theorem dropNulls_eq_nil_iff {os : List CTxOut} :
    dropNulls os = [] ↔ os.all CTxOut.isNull = true := by
  induction os with
  | nil => simp [dropNulls]
  | cons o os ih =>
    simp only [dropNulls, List.all_cons, Bool.and_eq_true, ← ih]
    cases e : dropNulls os with
    | nil => by_cases h : o.isNull = true <;> simp [h]
    | cons p ps => simp

theorem Clean.isPruned_iff {c : CCoins} (h : c.Clean) : c.isPruned = true ↔ c.vout = [] := by
  rw [← h, dropNulls_eq_nil_iff]
  rfl

end CCoins

end Stonecoin
