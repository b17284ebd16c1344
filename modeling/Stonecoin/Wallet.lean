/-
The data of the wallet that selects coins (`wallet/wallet.h`, `wallet/wallet.cpp`): amounts,
outputs and `AvailableCoins` for denominated ones.

A `CWalletTx` is its transaction.  The wallet holds one for each hash, so that a pointer to it is
the transaction itself.  What the chain, the pool and the keys say about it is a parameter.
-/
import Mathlib.Data.List.Nodup
import Stonecoin.Darksend

namespace Stonecoin

def CENT : ℤ := 1000000
def MIN_CHANGE : ℤ := CENT

def isDenominatedAmount (nInputAmount : ℤ) : Bool :=
  vecPrivateSendDenominations.any fun d => nInputAmount = d

/-- An output of the wallet that can be selected. -/
structure COutput where
  tx : CTransaction
  i : ℕ
  nDepth : ℤ
  fSpendable : Bool
deriving DecidableEq

/-- What `setCoinsRet` holds of an output. -/
def COutput.key (out : COutput) : CTransaction × ℕ := (out.tx, out.i)

def valueOf (c : CTransaction × ℕ) : ℤ := (c.1.vout.getD c.2 CTxOut.null).nValue

def COutput.nValue (out : COutput) : ℤ := valueOf out.key

def totalValue (outs : List COutput) : ℤ := (outs.map COutput.nValue).sum

def COutput.outpoint (out : COutput) : COutPoint := ⟨out.tx.hash, out.i⟩

/-! ### `AvailableCoins` -/

def ISMINE_NO : ℕ := 0
def ISMINE_SPENDABLE : ℕ := 4

/-- The wallet, with its transactions in the order of their hashes. -/
structure CWallet where
  mapWallet : List CTransaction
  hashes : (mapWallet.map CTransaction.hash).Nodup
  checkFinalTx : CTransaction → Bool
  isTrusted : CTransaction → Bool
  inMempool : CTransaction → Bool
  blocksToMaturity : CTransaction → ℤ
  depthInMainChain : CTransaction → ℤ
  isMine : CTxOut → ℕ
  isSpent : UInt256 → ℕ → Bool
  isLockedCoin : UInt256 → ℕ → Bool

namespace CWallet

variable (w : CWallet)

/-- An output of a transaction, if it can be selected. -/
def availableOutput (pcoin : CTransaction) (i : ℕ) : Option COutput :=
  if isDenominatedAmount (valueOf (pcoin, i)) && !w.isSpent pcoin.hash i &&
      w.isMine (pcoin.vout.getD i CTxOut.null) ≠ ISMINE_NO && !w.isLockedCoin pcoin.hash i &&
      0 < valueOf (pcoin, i) then
    some ⟨pcoin, i, w.depthInMainChain pcoin,
      (w.isMine (pcoin.vout.getD i CTxOut.null) &&& ISMINE_SPENDABLE) ≠ ISMINE_NO⟩
  else none

def availableOutputs (pcoin : CTransaction) : List COutput :=
  (List.range pcoin.vout.length).filterMap (w.availableOutput pcoin)

def availableIn (pcoin : CTransaction) : List COutput :=
  if !w.checkFinalTx pcoin then []
  else if !w.isTrusted pcoin then []
  else if pcoin.isCoinBase && 0 < w.blocksToMaturity pcoin then []
  else if w.depthInMainChain pcoin = 0 && !w.inMempool pcoin then []
  else w.availableOutputs pcoin

/-- `AvailableCoins(vCoins, true, NULL, false, ONLY_DENOMINATED)`. -/
def availableDenominated : List COutput := w.mapWallet.flatMap w.availableIn

theorem availableIn_eq (pcoin : CTransaction) :
    w.availableIn pcoin = [] ∨ w.availableIn pcoin = w.availableOutputs pcoin := by
  unfold availableIn
  split_ifs
  · exact Or.inl rfl
  · exact Or.inl rfl
  · exact Or.inl rfl
  · exact Or.inl rfl
  · exact Or.inr rfl

theorem availableOutput_spec {pcoin : CTransaction} {i : ℕ} {out : COutput}
    (h : w.availableOutput pcoin i = some out) : out.tx = pcoin ∧ out.i = i ∧ 0 < out.nValue := by
  rw [availableOutput] at h
  split at h
  next hcond =>
    rw [Bool.and_eq_true, decide_eq_true_eq] at hcond
    obtain rfl := Option.some.inj h
    exact ⟨rfl, rfl, hcond.2⟩
  next => cases h

theorem mem_availableOutputs {pcoin : CTransaction} {out : COutput}
    (h : out ∈ w.availableOutputs pcoin) : out.tx = pcoin ∧ 0 < out.nValue := by
  obtain ⟨i, -, hsome⟩ := List.mem_filterMap.mp h
  obtain ⟨htx, -, hpos⟩ := w.availableOutput_spec hsome
  exact ⟨htx, hpos⟩

theorem nodup_availableOutputs (pcoin : CTransaction) :
    ((w.availableOutputs pcoin).map COutput.outpoint).Nodup := by
  -- the indices are those of a range
  have hi : ((w.availableOutputs pcoin).map COutput.i).Sublist (List.range pcoin.vout.length) := by
    unfold availableOutputs
    induction List.range pcoin.vout.length with
    | nil => exact List.Sublist.refl _
    | cons i is ih =>
      cases hout : w.availableOutput pcoin i with
      | none =>
        rw [List.filterMap_cons_none hout]
        exact ih.cons i
      | some out =>
        rw [List.filterMap_cons_some hout, List.map_cons, (w.availableOutput_spec hout).2.1]
        exact ih.cons_cons i
  refine List.Nodup.of_map COutPoint.n ?_
  rw [List.map_map]
  exact List.nodup_range.sublist hi

theorem nodup_availableDenominated : (w.availableDenominated.map COutput.outpoint).Nodup := by
  rw [availableDenominated, List.map_flatMap, List.nodup_flatMap]
  constructor
  · intro pcoin _
    rcases w.availableIn_eq pcoin with heq | heq
    · rw [heq]
      exact List.nodup_nil
    · rw [heq]
      exact w.nodup_availableOutputs pcoin
  · have hhash : ∀ pcoin, ∀ o ∈ (w.availableIn pcoin).map COutput.outpoint,
        o.hash = pcoin.hash := by
      intro pcoin o ho
      obtain ⟨out, hout, rfl⟩ := List.mem_map.mp ho
      rcases w.availableIn_eq pcoin with heq | heq
      · rw [heq] at hout
        cases hout
      · rw [heq] at hout
        show out.tx.hash = pcoin.hash
        rw [(w.mem_availableOutputs hout).1]
    refine (List.pairwise_map.mp w.hashes).imp fun {pcoin pcoin'} hne o ho ho' => ?_
    exact hne ((hhash pcoin o ho).symm.trans (hhash pcoin' o ho'))

end CWallet

end Stonecoin
