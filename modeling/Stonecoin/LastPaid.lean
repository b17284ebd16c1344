/-
The height at which a masternode was last paid (`masternode.cpp`).

`UpdateLastPaid` scans the active chain from its tip down to the stored height.  It finds later
payments, but never takes a height back: when a reorganisation disconnects the block of the last
payment and the new branch has no payment as high, the old height stays.  A block that cannot be
read is read again until the passes are used up.

  * `follows_chain`: every run whose tip changes keep the height backed by a payment;
  * `disconnected_height_kept`: a run that does not.
-/
import Stonecoin.PaymentQueue
import Stonecoin.Runs

namespace Stonecoin

/-- A block of the active chain: its index entry, its coinbase, and whether
`ReadBlockFromDisk` succeeds. -/
structure ChainBlock where
  nHeight : ℤ
  nTime : ℤ
  coinbase : CTransaction
  onDisk : Bool
  nValueOut : ℤ
  /-- `CheckTransaction` has accepted the coinbase. -/
  valueOut : coinbase.getValueOut = some nValueOut

def CMasternodeBlockPayees.hasPayeeWithVotes {H : Type} (b : CMasternodeBlockPayees H)
    (payeeIn : CScript) (nVotesReq : ℕ) : Bool :=
  b.vecPayees.any fun p => nVotesReq ≤ p.getVoteCount && p.scriptPubKey = payeeIn

def ChainBlock.pays (founderStartHeight : ℤ) (mnpayee : CScript) (b : ChainBlock) : Bool :=
  b.coinbase.vout.any fun txout => mnpayee = txout.scriptPubKey &&
    getMasternodePayment founderStartHeight b.nHeight b.nValueOut = txout.nValue

section Scan

variable {H : Type} (mnpayments : CMasternodePayments H) (founderStartHeight : ℤ)
  (mnpayee : CScript)

/-- `mapMasternodeBlocks` has two votes for a script at a height. -/
def hasVotesAt (nHeight : ℤ) : Bool :=
  (mnpayments.mapMasternodeBlocks.lookup nHeight).any (·.hasPayeeWithVotes mnpayee 2)

/-- The loop of `UpdateLastPaid`, with the number of passes that are left.  The chain is a list
with its tip first. -/
def updateLastPaidLoop : ℕ → List ChainBlock → PaidMasternode → PaidMasternode
  | 0, _, mn => mn
  | _ + 1, [], mn => mn
  | i + 1, block :: chain, mn =>
    if block.nHeight ≤ mn.nBlockLastPaid then mn
    else if hasVotesAt mnpayments mnpayee block.nHeight then
      -- `continue` does not go on to the previous block
      if !block.onDisk then updateLastPaidLoop i (block :: chain) mn
      else if block.pays founderStartHeight mnpayee then
        { mn with nBlockLastPaid := block.nHeight, nTimeLastPaid := block.nTime }
      else updateLastPaidLoop i chain mn
    else updateLastPaidLoop i chain mn

def PaidMasternode.updateLastPaid (scriptOf : CPubKey → CScript) (pindex : List ChainBlock)
    (nMaxBlocksToScanBack : ℤ) (mn : PaidMasternode) : PaidMasternode :=
  updateLastPaidLoop mnpayments founderStartHeight (scriptOf mn.pubKeyCollateralAddress)
    nMaxBlocksToScanBack.toNat pindex mn

end Scan

/-! ### Statement -/

/-- The blocks of a chain, tip first, down to the block of height 0. -/
def Chained (chain : List ChainBlock) : Prop :=
  ∀ (i : ℕ) (b : ChainBlock), chain[i]? = some b → b.nHeight = chain.length - 1 - i

/-- The active chain and a masternode.  All blocks above `low` have been in reach of a scan. -/
structure PaidState where
  chain : List ChainBlock
  mn : PaidMasternode
  low : ℤ

/-- The chain has a new tip, and `UpdateLastPaid` is called. -/
structure TipChange (H : Type) where
  chain : List ChainBlock
  nMaxBlocksToScanBack : ℤ
  mnpayments : CMasternodePayments H

def TipChange.window {H : Type} (e : TipChange H) : List ChainBlock :=
  e.chain.take e.nMaxBlocksToScanBack.toNat

/-- Nothing has been scanned. -/
def PaidState.start (chain : List ChainBlock) (mn : PaidMasternode) : PaidState :=
  ⟨chain, mn, max 0 (chain.length - 1)⟩

section Statement

variable {H : Type} (founderStartHeight : ℤ) (scriptOf : CPubKey → CScript)

def PaidState.step (s : PaidState) (e : TipChange H) : PaidState where
  chain := e.chain
  mn := s.mn.updateLastPaid e.mnpayments founderStartHeight scriptOf e.chain
    e.nMaxBlocksToScanBack
  low := min s.low (max 0 (e.chain.length - 1 - e.nMaxBlocksToScanBack))

def PaidState.payee (s : PaidState) : CScript := scriptOf s.mn.pubKeyCollateralAddress

/-- The scan reaches all blocks that have changed, and each height has two votes. -/
structure TipChange.Covered (s : PaidState) (e : TipChange H) : Prop where
  chained : Chained e.chain
  changed : ∃ old new common, s.chain = old ++ common ∧ e.chain = new ++ common ∧
    (old.length : ℤ) ≤ e.nMaxBlocksToScanBack ∧ (new.length : ℤ) ≤ e.nMaxBlocksToScanBack
  votes : ∀ b ∈ e.window, 0 < b.nHeight →
    hasVotesAt e.mnpayments (s.payee scriptOf) b.nHeight = true

/-- The height that is stored stays backed by a payment: the new chain has one at this height
or higher, and the highest in reach can be read, with the blocks above it. -/
structure TipChange.Backed (s : PaidState) (e : TipChange H) : Prop where
  paid : s.mn.nBlockLastPaid = 0 ∨ ∃ b ∈ e.chain, s.mn.nBlockLastPaid ≤ b.nHeight ∧
    b.pays founderStartHeight (s.payee scriptOf) = true
  onDisk : ∀ b ∈ e.window, s.mn.nBlockLastPaid < b.nHeight →
    b.pays founderStartHeight (s.payee scriptOf) = true →
    (∀ b' ∈ e.window, b'.pays founderStartHeight (s.payee scriptOf) = true →
      b'.nHeight ≤ b.nHeight) →
    ∀ b' ∈ e.window, b.nHeight ≤ b'.nHeight → b'.onDisk = true

/-- **The stored height follows the chain**: it is the height of the highest payment of the
active chain that was in reach of a scan, or 0 if there is none. -/
def FollowsChain (s : PaidState) : Prop :=
  (s.mn.nBlockLastPaid = 0 ∧ ∀ b ∈ s.chain, s.low < b.nHeight →
    b.pays founderStartHeight (s.payee scriptOf) = false) ∨
  ∃ b ∈ s.chain, b.nHeight = s.mn.nBlockLastPaid ∧ s.low < b.nHeight ∧
    b.pays founderStartHeight (s.payee scriptOf) = true ∧
    ∀ b' ∈ s.chain, s.low < b'.nHeight →
      b'.pays founderStartHeight (s.payee scriptOf) = true → b'.nHeight ≤ b.nHeight

end Statement

/-! ### The scan -/

section Scan

variable {H : Type} {mnpayments : CMasternodePayments H} {founderStartHeight : ℤ}
  {mnpayee : CScript} {mn : PaidMasternode} {b : ChainBlock}

theorem updateLastPaidLoop_same : ∀ {i : ℕ} {chain : List ChainBlock},
    (∀ b ∈ chain.take i, mn.nBlockLastPaid < b.nHeight →
      b.pays founderStartHeight mnpayee = false) →
    updateLastPaidLoop mnpayments founderStartHeight mnpayee i chain mn = mn
  | 0, _, _ => by rw [updateLastPaidLoop]
  | _ + 1, [], _ => by rw [updateLastPaidLoop]
  | i + 1, block :: chain, hnone => by
    rw [updateLastPaidLoop]
    have hrest : ∀ b ∈ chain.take i, mn.nBlockLastPaid < b.nHeight →
        b.pays founderStartHeight mnpayee = false :=
      fun b hb => hnone b (List.mem_cons_of_mem block hb)
    split_ifs with hlow hvotes hdisk hpays
    · rfl
    · refine updateLastPaidLoop_same fun b hb => hnone b ?_
      exact (List.take_sublist_take_left (Nat.le_succ i)).subset hb
    · have hfalse := hnone block List.mem_cons_self (not_le.mp hlow)
      exact absurd (hpays.symm.trans hfalse) (by decide)
    · exact updateLastPaidLoop_same hrest
    · exact updateLastPaidLoop_same hrest

theorem updateLastPaidLoop_found : ∀ {i : ℕ} {chain : List ChainBlock},
    chain.Pairwise (fun b b' => b'.nHeight < b.nHeight) → b ∈ chain.take i →
    mn.nBlockLastPaid < b.nHeight → b.pays founderStartHeight mnpayee = true →
    hasVotesAt mnpayments mnpayee b.nHeight = true →
    (∀ b' ∈ chain.take i, b'.pays founderStartHeight mnpayee = true → b'.nHeight ≤ b.nHeight) →
    (∀ b' ∈ chain.take i, b.nHeight ≤ b'.nHeight → b'.onDisk = true) →
    updateLastPaidLoop mnpayments founderStartHeight mnpayee i chain mn =
      { mn with nBlockLastPaid := b.nHeight, nTimeLastPaid := b.nTime }
  | 0, _, _, hb, _, _, _, _, _ => absurd hb (by simp)
  | _ + 1, [], _, hb, _, _, _, _, _ => absurd hb (by simp)
  | i + 1, block :: chain, hdown, hb, hlast, hpays, hvotes, hhighest, hdisk => by
    rw [List.pairwise_cons] at hdown
    rw [List.take_succ_cons] at hb hhighest hdisk
    have hfirst := hhighest block List.mem_cons_self
    have hrest : b ∈ chain.take i →
        updateLastPaidLoop mnpayments founderStartHeight mnpayee i chain mn =
          { mn with nBlockLastPaid := b.nHeight, nTimeLastPaid := b.nTime } := fun hmem =>
      updateLastPaidLoop_found hdown.2 hmem hlast hpays hvotes
        (fun b' hb' => hhighest b' (List.mem_cons_of_mem block hb'))
        (fun b' hb' => hdisk b' (List.mem_cons_of_mem block hb'))
    rw [updateLastPaidLoop]
    rcases List.mem_cons.mp hb with rfl | hmem
    · rw [if_neg (not_le.mpr hlast), if_pos hvotes, if_neg (by simp [hdisk b hb le_rfl]),
        if_pos hpays]
    · have habove := hdown.1 b (List.mem_of_mem_take hmem)
      have hread := hdisk block List.mem_cons_self habove.le
      have hunpaid : ¬ block.pays founderStartHeight mnpayee = true := fun h =>
        absurd (hfirst h) (not_le.mpr habove)
      rw [if_neg (not_le.mpr (hlast.trans habove)),
        if_neg (show ¬ (!block.onDisk) = true by simp [hread]), if_neg hunpaid, ite_self]
      exact hrest hmem

end Scan

/-! ### Chains -/

section Chain

variable {chain : List ChainBlock} {b : ChainBlock}

theorem Chained.pairwise (h : Chained chain) :
    chain.Pairwise fun b b' => b'.nHeight < b.nHeight := by
  rw [List.pairwise_iff_getElem]
  intro i j hi hj hij
  rw [h i _ (List.getElem?_eq_getElem hi), h j _ (List.getElem?_eq_getElem hj)]
  omega

theorem Chained.height_lt (h : Chained chain) (hb : b ∈ chain) :
    0 ≤ b.nHeight ∧ b.nHeight ≤ chain.length - 1 := by
  obtain ⟨i, hi, rfl⟩ := List.getElem_of_mem hb
  rw [h i _ (List.getElem?_eq_getElem hi)]
  omega

theorem Chained.mem_take_iff (h : Chained chain) (hb : b ∈ chain) (k : ℕ) :
    b ∈ chain.take k ↔ (chain.length : ℤ) - 1 - k < b.nHeight := by
  obtain ⟨i, hi, rfl⟩ := List.getElem_of_mem hb
  have hheight := h i _ (List.getElem?_eq_getElem hi)
  constructor
  · intro hmem
    obtain ⟨j, hj, heq⟩ := List.getElem_of_mem hmem
    rw [List.length_take] at hj
    rw [List.getElem_take] at heq
    have hheight' := h j _ (List.getElem?_eq_getElem (by omega))
    rw [heq] at hheight'
    omega
  · intro hlt
    exact List.mem_take_iff_getElem.mpr ⟨i, by omega, rfl⟩

theorem exists_highest (p : ChainBlock → Prop) : ∀ {l : List ChainBlock}, (∃ b ∈ l, p b) →
    ∃ b ∈ l, p b ∧ ∀ b' ∈ l, p b' → b'.nHeight ≤ b.nHeight
  | [], h => by simp at h
  | b :: l, h => by
    by_cases hrest : ∃ b ∈ l, p b
    · obtain ⟨b₁, hb₁, hp₁, hmax⟩ := exists_highest p hrest
      by_cases hfirst : p b ∧ b₁.nHeight < b.nHeight
      · refine ⟨b, List.mem_cons_self, hfirst.1, List.forall_mem_cons.mpr ⟨fun _ => le_rfl, ?_⟩⟩
        exact fun b' hb' hp' => (hmax b' hb' hp').trans hfirst.2.le
      · refine ⟨b₁, List.mem_cons_of_mem b hb₁, hp₁, List.forall_mem_cons.mpr ⟨?_, hmax⟩⟩
        exact fun hp => not_lt.mp fun hlt => hfirst ⟨hp, hlt⟩
    · obtain ⟨b₁, hb₁, hp₁⟩ := h
      rcases List.mem_cons.mp hb₁ with rfl | hmem
      · refine ⟨b₁, List.mem_cons_self, hp₁, List.forall_mem_cons.mpr ⟨fun _ => le_rfl, ?_⟩⟩
        exact fun b' hb' hp' => absurd ⟨b', hb', hp'⟩ hrest
      · exact absurd ⟨b₁, hmem, hp₁⟩ hrest

end Chain

/-! ### Tip changes -/

section Step

variable {H : Type} {founderStartHeight : ℤ} {scriptOf : CPubKey → CScript} {s : PaidState}
  {e : TipChange H} {b : ChainBlock}

theorem TipChange.Covered.mem_old (hcovered : e.Covered scriptOf s) (hb : b ∈ e.chain)
    (hout : b ∉ e.window) : b ∈ s.chain := by
  obtain ⟨old, new, common, hold, hnew, -, hlen⟩ := hcovered.changed
  rw [hold]
  refine List.mem_append_right old ?_
  rw [hnew] at hb
  rcases List.mem_append.mp hb with hmem | hmem
  · refine absurd ?_ hout
    rw [TipChange.window, hnew, List.take_append, List.take_of_length_le (by omega)]
    exact List.mem_append_left _ hmem
  · exact hmem

theorem TipChange.Covered.mem_window_iff (hcovered : e.Covered scriptOf s) (hb : b ∈ e.chain) :
    b ∈ e.window ↔ (e.chain.length : ℤ) - 1 - e.nMaxBlocksToScanBack < b.nHeight := by
  obtain ⟨old, new, common, -, -, -, hlen⟩ := hcovered.changed
  rw [TipChange.window, hcovered.chained.mem_take_iff hb]
  omega

variable (founderStartHeight) in
theorem TipChange.Covered.low_lt (hcovered : e.Covered scriptOf s) (hb : b ∈ e.chain)
    (hout : b ∉ e.window) (hlow : (s.step founderStartHeight scriptOf e).low < b.nHeight) :
    s.low < b.nHeight := by
  rw [hcovered.mem_window_iff hb] at hout
  rcases min_lt_iff.mp hlow with h | h
  · exact h
  · exact absurd ((le_max_right _ _).trans_lt h) hout

theorem scan_spec (hcovered : e.Covered scriptOf s) (hbacked : e.Backed founderStartHeight scriptOf s)
    (hpos : 0 ≤ s.mn.nBlockLastPaid) :
    ((s.step founderStartHeight scriptOf e).mn = s.mn ∧
      ∀ b ∈ e.window, b.pays founderStartHeight (s.payee scriptOf) = true →
        b.nHeight ≤ s.mn.nBlockLastPaid) ∨
    ∃ b ∈ e.window, s.mn.nBlockLastPaid < b.nHeight ∧
      b.pays founderStartHeight (s.payee scriptOf) = true ∧
      (∀ b' ∈ e.window, b'.pays founderStartHeight (s.payee scriptOf) = true →
        b'.nHeight ≤ b.nHeight) ∧
      (s.step founderStartHeight scriptOf e).mn =
        { s.mn with nBlockLastPaid := b.nHeight, nTimeLastPaid := b.nTime } := by
  by_cases hlater : ∃ b ∈ e.window, b.pays founderStartHeight (s.payee scriptOf) = true ∧
      s.mn.nBlockLastPaid < b.nHeight
  · obtain ⟨b, hb, ⟨hpays, hlast⟩, hmax⟩ := exists_highest
      (fun b => b.pays founderStartHeight (s.payee scriptOf) = true ∧
        s.mn.nBlockLastPaid < b.nHeight) hlater
    have hhighest : ∀ b' ∈ e.window, b'.pays founderStartHeight (s.payee scriptOf) = true →
        b'.nHeight ≤ b.nHeight := by
      intro b' hb' hpays'
      by_cases hlast' : s.mn.nBlockLastPaid < b'.nHeight
      · exact hmax b' hb' ⟨hpays', hlast'⟩
      · exact (not_lt.mp hlast').trans hlast.le
    exact .inr ⟨b, hb, hlast, hpays, hhighest, updateLastPaidLoop_found hcovered.chained.pairwise hb
      hlast hpays (hcovered.votes b hb (hpos.trans_lt hlast)) hhighest
      (hbacked.onDisk b hb hlast hpays hhighest)⟩
  · have hnone : ∀ b ∈ e.window, b.pays founderStartHeight (s.payee scriptOf) = true →
        b.nHeight ≤ s.mn.nBlockLastPaid :=
      fun b hb hpays => not_lt.mp fun hlt => hlater ⟨b, hb, hpays, hlt⟩
    refine .inl ⟨updateLastPaidLoop_same fun b hb hlt => ?_, hnone⟩
    exact Bool.eq_false_iff.mpr fun hpays => absurd (hnone b hb hpays) (not_le.mpr hlt)

theorem PaidState.step_payee (hcovered : e.Covered scriptOf s)
    (hbacked : e.Backed founderStartHeight scriptOf s) (hpos : 0 ≤ s.mn.nBlockLastPaid) :
    (s.step founderStartHeight scriptOf e).payee scriptOf = s.payee scriptOf := by
  rw [PaidState.payee]
  rcases scan_spec hcovered hbacked hpos with ⟨hsame, -⟩ | ⟨b, -, -, -, -, hfound⟩
  · rw [hsame]
    rfl
  · rw [hfound]
    rfl

theorem FollowsChain.nonneg (h : FollowsChain founderStartHeight scriptOf s) (hlow : 0 ≤ s.low) :
    0 ≤ s.mn.nBlockLastPaid := by
  rcases h with ⟨hzero, -⟩ | ⟨b, -, hheight, habove, -⟩
  · exact hzero.ge
  · exact hheight ▸ (hlow.trans_lt habove).le

theorem FollowsChain.le_stored (h : FollowsChain founderStartHeight scriptOf s)
    (hb : b ∈ s.chain) (hlow : s.low < b.nHeight)
    (hpays : b.pays founderStartHeight (s.payee scriptOf) = true) :
    b.nHeight ≤ s.mn.nBlockLastPaid := by
  rcases h with ⟨-, hnone⟩ | ⟨b', -, hheight, -, -, hmax⟩
  · exact absurd (hpays.symm.trans (hnone b hb hlow)) (by decide)
  · exact hheight ▸ hmax b hb hlow hpays

theorem FollowsChain.step (h : FollowsChain founderStartHeight scriptOf s) (hlow : 0 ≤ s.low)
    (hcovered : e.Covered scriptOf s) (hbacked : e.Backed founderStartHeight scriptOf s) :
    FollowsChain founderStartHeight scriptOf (s.step founderStartHeight scriptOf e) := by
  have hpos := h.nonneg hlow
  -- out of reach no payment is higher than the stored height
  have hout : ∀ b ∈ e.chain, b ∉ e.window →
      (s.step founderStartHeight scriptOf e).low < b.nHeight →
      b.pays founderStartHeight (s.payee scriptOf) = true → b.nHeight ≤ s.mn.nBlockLastPaid :=
    fun b hb hnot habove hpays => h.le_stored (hcovered.mem_old hb hnot)
      (hcovered.low_lt founderStartHeight hb hnot habove) hpays
  rw [FollowsChain, s.step_payee hcovered hbacked hpos]
  rcases scan_spec hcovered hbacked hpos with ⟨hsame, hnone⟩ | ⟨b, hb, hlast, hpays, hmax, hfound⟩
  · rw [hsame]
    have hall : ∀ b ∈ e.chain, (s.step founderStartHeight scriptOf e).low < b.nHeight →
        b.pays founderStartHeight (s.payee scriptOf) = true →
        b.nHeight ≤ s.mn.nBlockLastPaid := by
      intro b hb habove hpays
      by_cases hmem : b ∈ e.window
      · exact hnone b hmem hpays
      · exact hout b hb hmem habove hpays
    by_cases hzero : s.mn.nBlockLastPaid = 0
    · refine .inl ⟨hzero, fun b hb habove => Bool.eq_false_iff.mpr fun hpays => ?_⟩
      have hle := hall b hb habove hpays
      have hlow' : 0 ≤ (s.step founderStartHeight scriptOf e).low :=
        le_min hlow (le_max_left _ _)
      omega
    · obtain ⟨b, hb, hle, hpays⟩ := hbacked.paid.resolve_left hzero
      have hstored : s.low < s.mn.nBlockLastPaid := by
        rcases h with ⟨hzero', -⟩ | ⟨b', -, hheight, habove, -⟩
        · exact absurd hzero' hzero
        · exact hheight ▸ habove
      have habove : (s.step founderStartHeight scriptOf e).low < b.nHeight :=
        (min_le_left _ _).trans_lt (hstored.trans_le hle)
      have hheight := le_antisymm (hall b hb habove hpays) hle
      exact .inr ⟨b, hb, hheight, habove, hpays, fun b' hb' habove' hpays' =>
        (hall b' hb' habove' hpays').trans hle⟩
  · have hmem : b ∈ e.chain := List.mem_of_mem_take hb
    rw [hfound]
    refine .inr ⟨b, hmem, rfl, ?_, hpays, fun b' hb' habove' hpays' => ?_⟩
    · refine (min_le_right _ _).trans_lt (max_lt (hpos.trans_lt hlast) ?_)
      exact (hcovered.mem_window_iff hmem).mp hb
    · by_cases hmem' : b' ∈ e.window
      · exact hmax b' hmem' hpays'
      · exact (hout b' hb' hmem' habove' hpays').trans hlast.le

end Step

/-! ### Runs -/

section Run

variable {H : Type} (founderStartHeight : ℤ) (scriptOf : CPubKey → CScript)

/-- Tip changes whose scans reach what has changed, and that keep the stored height backed. -/
def TipChange.Kept (s : PaidState) (e : TipChange H) : Prop :=
  e.Covered scriptOf s ∧ e.Backed founderStartHeight scriptOf s

variable {founderStartHeight scriptOf}

/-- **The stored height follows the active chain** in every run of such tip changes. -/
theorem follows_chain {chain : List ChainBlock} (hchained : Chained chain) {mn : PaidMasternode}
    (hnever : mn.nBlockLastPaid = 0) {es : List (TipChange H)} {s : PaidState}
    (hrun : Runs.Run (Runs.Guarded (TipChange.Kept founderStartHeight scriptOf)
      (PaidState.step founderStartHeight scriptOf)) (.start chain mn) es s) :
    FollowsChain founderStartHeight scriptOf s := by
  have hinv : FollowsChain founderStartHeight scriptOf s ∧ 0 ≤ s.low := by
    refine hrun.invariant (I := fun s => FollowsChain founderStartHeight scriptOf s ∧ 0 ≤ s.low)
      ?_ ⟨.inl ⟨hnever, fun b hb habove => ?_⟩, le_max_left _ _⟩
    · rintro s e s' ⟨hs, hlow⟩ ⟨⟨hcovered, hbacked⟩, rfl⟩
      exact ⟨hs.step hlow hcovered hbacked, le_min hlow (le_max_left _ _)⟩
    · have hle := (hchained.height_lt hb).2
      have hlt := (le_max_right _ _).trans_lt habove
      omega
  exact hinv.1

end Run

/-! ### A reorganisation -/

/-- A coinbase of 100, with or without a share for the script `[1]`. -/
def payeeCoinbase (paid : Bool) : CTransaction :=
  ⟨0, 1, [], if paid then [CTxOut.of 99 [2], CTxOut.of 1 [1]] else [CTxOut.of 100 [2]], 0⟩

def blockAt (nHeight : ℤ) (paid : Bool) : ChainBlock where
  nHeight := nHeight
  nTime := 0
  coinbase := payeeCoinbase paid
  onDisk := true
  nValueOut := 100
  valueOut := by cases paid <;> decide +kernel

def twoVotes : CMasternodePayments ℕ where
  pCurrentBlockIndex := none
  mapMasternodePaymentVotes := ∅
  mapMasternodeBlocks :=
    ((AList.insert 1 ⟨1, [⟨[1], [0, 1]⟩]⟩ ∅).insert 2 ⟨2, [⟨[1], [0, 1]⟩]⟩).insert 3
      ⟨3, [⟨[1], [0, 1]⟩]⟩
  mapMasternodesLastVote := ∅

def keyOne : PaidMasternode :=
  ⟨{ masternodeAt 1 .MASTERNODE_ENABLED with pubKeyCollateralAddress := [1] }, 0, 0, 0⟩

def connected : TipChange ℕ := ⟨[blockAt 2 true, blockAt 1 false, blockAt 0 false], 100, twoVotes⟩

/-- The second block is replaced by two others; the last one may pay the masternode. -/
def reorganised (paid : Bool) : TipChange ℕ :=
  ⟨[blockAt 3 paid, blockAt 2 false, blockAt 1 false, blockAt 0 false], 100, twoVotes⟩

def afterReorg (paid : Bool) : PaidState :=
  ((PaidState.start [blockAt 0 false] keyOne).step FOUNDER_START_BLOCK id connected).step
    FOUNDER_START_BLOCK id (reorganised paid)

theorem chained_genesis : Chained [blockAt 0 false] := by
  intro i b hb
  obtain ⟨rfl, rfl⟩ : i = 0 ∧ blockAt 0 false = b := by
    rcases i with _ | i <;> simp_all
  rfl

theorem connected_covered :
    connected.Covered id (PaidState.start [blockAt 0 false] keyOne) where
  chained := by
    intro i b hb
    rcases i with _ | _ | _ | i
    all_goals simp [connected] at hb
    all_goals subst hb; rfl
  changed := ⟨[], [blockAt 2 true, blockAt 1 false], [blockAt 0 false], rfl, rfl, by decide,
    by decide⟩
  votes := by decide +kernel

theorem reorganised_covered (paid : Bool) : (reorganised paid).Covered id
    ((PaidState.start [blockAt 0 false] keyOne).step FOUNDER_START_BLOCK id connected) where
  chained := by
    intro i b hb
    rcases i with _ | _ | _ | _ | i
    all_goals simp [reorganised] at hb
    all_goals subst hb; rfl
  changed := ⟨[blockAt 2 true], [blockAt 3 paid, blockAt 2 false],
    [blockAt 1 false, blockAt 0 false], rfl, rfl, by simp [reorganised], by simp [reorganised]⟩
  votes := by cases paid <;> decide +kernel

theorem follows_chain_reorg : Chained [blockAt 0 false] ∧ keyOne.nBlockLastPaid = 0 ∧
    (afterReorg true).mn.nBlockLastPaid = 3 ∧
    FollowsChain FOUNDER_START_BLOCK id (afterReorg true) := by
  have hrun : Runs.Run (Runs.Guarded (TipChange.Kept FOUNDER_START_BLOCK id)
      (PaidState.step FOUNDER_START_BLOCK id)) (.start [blockAt 0 false] keyOne)
      [connected, reorganised true] (afterReorg true) := by
    refine .cons ⟨⟨connected_covered, .inl rfl, ?_⟩, rfl⟩
      (.cons ⟨⟨reorganised_covered true, .inr ⟨blockAt 3 true, List.mem_cons_self, ?_, ?_⟩, ?_⟩,
        rfl⟩ (.nil _))
    · decide +kernel
    · decide +kernel
    · decide +kernel
    · decide +kernel
  exact ⟨chained_genesis, rfl, by decide +kernel, follows_chain chained_genesis rfl hrun⟩

/-- **A height whose block is disconnected stays.** -/
theorem disconnected_height_kept : Chained [blockAt 0 false] ∧ keyOne.nBlockLastPaid = 0 ∧
    Runs.Run (Runs.Guarded (fun s e => TipChange.Covered id s e)
      (PaidState.step FOUNDER_START_BLOCK id)) (.start [blockAt 0 false] keyOne)
      [connected, reorganised false] (afterReorg false) ∧
    (afterReorg false).mn.nBlockLastPaid = 2 ∧
    ¬ ((afterReorg false).mn.nBlockLastPaid = 0 ∨ ∃ b ∈ (afterReorg false).chain,
      b.nHeight = (afterReorg false).mn.nBlockLastPaid ∧
        b.pays FOUNDER_START_BLOCK ((afterReorg false).payee id) = true) := by
  refine ⟨chained_genesis, rfl, .cons ⟨connected_covered, rfl⟩
    (.cons ⟨reorganised_covered false, rfl⟩ (.nil _)), ?_⟩
  constructor
  · decide +kernel
  · decide +kernel

end Stonecoin
