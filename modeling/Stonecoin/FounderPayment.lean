/-
Block rewards and their shares: `GetBlockSubsidy` and `GetMasternodePayment` of
`main.cpp`, and the class `FounderPayment`.

The founder start height and the one-address height are fields with setters in the
source, so they are fields here; the mainnet object has the two constants.
-/
import Stonecoin.Transaction
import Mathlib.Algebra.Order.Group.Int
import Mathlib.Data.List.GetD
import Mathlib.Logic.Function.Iterate

namespace Stonecoin

def POST_MINE_HEIGHT : ℤ := 117870
def POST_MINE_VALUE : ℤ := 500000
def FOUNDER_START_BLOCK : ℤ := 9999000
def ONE_ADDRESS_HEIGHT : ℤ := 9999500

/-- The yearly decline of `GetBlockSubsidy`: one pass of its loop takes a tenth off. -/
def declineSubsidy (nSubsidy : ℤ) : ℤ := nSubsidy - nSubsidy.tdiv 10

/-- `GetBlockSubsidy`, called with `fSuperblockPartOnly = false`.  The loop runs for
`i = interval, 2 * interval, …` up to the previous height, hence
`nPrevHeight / interval` times.  The difficulty bits are a parameter that the source
does not read. -/
def getBlockSubsidy (nSubsidyHalvingInterval : ℕ) (_nPrevBits : ℕ) (nPrevHeight : ℤ) : ℤ :=
  if nPrevHeight = 0 then 500000 * COIN
  else if nPrevHeight < 250 ∧ nPrevHeight + 1 ≠ POST_MINE_HEIGHT then COIN
  else if nPrevHeight + 1 = POST_MINE_HEIGHT ∧ nPrevHeight < 250 then
    COIN * POST_MINE_VALUE + COIN
  else
    let ret := if nPrevHeight + 1 = POST_MINE_HEIGHT then COIN * POST_MINE_VALUE else 0
    let nSubsidy :=
      if nPrevHeight + 1 ≠ POST_MINE_HEIGHT ∧ 250 ≤ nPrevHeight then
        declineSubsidy^[nPrevHeight.toNat / nSubsidyHalvingInterval] (10 * COIN)
      else 10 * COIN
    ret + nSubsidy

/-! ### The founder payment -/

/-- The object `founderPayment`.  The constructor stores two addresses, so the vector
is never empty. -/
structure FounderPayment where
  founderAddresses : List CTxDestination
  founderStartHeight : ℤ
  oneAddressHeight : ℤ
  founderAddresses_ne : founderAddresses ≠ []

def FounderPayment.of (address1 address2 : CTxDestination) : FounderPayment where
  founderAddresses := [address1, address2]
  founderStartHeight := FOUNDER_START_BLOCK
  oneAddressHeight := ONE_ADDRESS_HEIGHT
  founderAddresses_ne := by simp

namespace FounderPayment

variable (fp : FounderPayment)

/-- `getFounderPaymentAmount`: one eleventh of the reward, rounded towards zero. -/
def getFounderPaymentAmount (blockHeight blockReward : ℤ) : ℤ :=
  if blockHeight < fp.founderStartHeight then 0 else blockReward.tdiv 11

/-- `getCurrentFounderAddress`.  The height is converted to the unsigned 64-bit type
of `size()` before the remainder is taken. -/
def getCurrentFounderAddress (height : ℤ) : CTxDestination :=
  if fp.oneAddressHeight < height then fp.founderAddresses.head fp.founderAddresses_ne
  else
    fp.founderAddresses.getD
      ((height % 18446744073709551616).toNat % fp.founderAddresses.length)
      (fp.founderAddresses.head fp.founderAddresses_ne)

def payeeMatchFounder (txScript : CScript) : Bool :=
  fp.founderAddresses.any fun a => getScriptForDestination a = txScript

/-- `FounderPayment::IsBlockPayeeValid`: some output pays a founder script at least
the founder amount. -/
def isBlockPayeeValid (txNew : CTransaction) (height blockReward : ℤ) : Bool :=
  txNew.vout.any fun out =>
    fp.payeeMatchFounder out.scriptPubKey ∧
      fp.getFounderPaymentAmount height blockReward ≤ out.nValue

theorem getCurrentFounderAddress_mem (height : ℤ) :
    fp.getCurrentFounderAddress height ∈ fp.founderAddresses := by
  unfold getCurrentFounderAddress
  split
  · exact List.head_mem _
  · have hpos : 0 < fp.founderAddresses.length :=
      List.length_pos_iff.mpr fp.founderAddresses_ne
    rw [List.getD_eq_getElem _ _ (Nat.mod_lt _ hpos)]
    exact List.getElem_mem _

theorem payeeMatchFounder_current (height : ℤ) :
    fp.payeeMatchFounder (getScriptForDestination (fp.getCurrentFounderAddress height))
      = true := by
  simp only [payeeMatchFounder, List.any_eq_true, decide_eq_true_eq]
  exact ⟨_, fp.getCurrentFounderAddress_mem height, rfl⟩

theorem getFounderPaymentAmount_mono (height : ℤ) {s r : ℤ} (h : s ≤ r) :
    fp.getFounderPaymentAmount height s ≤ fp.getFounderPaymentAmount height r := by
  unfold getFounderPaymentAmount
  split
  · exact le_rfl
  · exact Int.tdiv_le_tdiv (by omega) h

end FounderPayment

end Stonecoin
