/-
The work of a block and of a chain (`GetBlockProof` and `CheckProofOfWork` in `pow.cpp`,
`nChainWork` in `AddToBlockIndex`).

  * `getBlockProof_chain_work`: the work grows along a chain exactly if its sum fits.
-/
import Stonecoin.CompactTargets

namespace Stonecoin.ChainWork

/-- `GetBlockProof`; `none` is the exception for a division by zero. -/
def getBlockProof (nBits : UInt32) : Option UInt256 :=
  let bnTarget := setCompact nBits
  if bnTarget.fNegative ∨ bnTarget.fOverflow ∨ bnTarget.value = 0 then some 0
  -- `2**256 / (bnTarget+1)`, which is too large a dividend
  else (divide (~~~bnTarget.value) (bnTarget.value + 1)).map (· + 1)

def checkProofOfWork (powLimit hash : UInt256) (nBits : UInt32) : Bool :=
  let bnTarget := setCompact nBits
  if bnTarget.fNegative ∨ bnTarget.value = 0 ∨ bnTarget.fOverflow ∨ powLimit < bnTarget.value then
    false
  else if bnTarget.value < hash then false
  else true

structure CBlockHeader where
  hash : UInt256
  nBits : UInt32
deriving DecidableEq, Repr

/-- `nChainWork` of the last block of a chain, which is given last block first. -/
def nChainWork : List CBlockHeader → Option UInt256
  | [] => some 0
  | block :: chain => do
    let work ← nChainWork chain
    let proof ← getBlockProof block.nBits
    some (work + proof)

/-! ### The work of a block -/

def IsTarget (nBits : UInt32) : Prop :=
  (setCompact nBits).fNegative = false ∧ (setCompact nBits).fOverflow = false ∧
    (setCompact nBits).value ≠ 0

instance (nBits : UInt32) : Decidable (IsTarget nBits) := inferInstanceAs (Decidable (_ ∧ _ ∧ _))

def target (nBits : UInt32) : ℕ := (setCompact nBits).value.toNat

theorem IsTarget.pos {nBits : UInt32} (h : IsTarget nBits) : 0 < target nBits :=
  Nat.pos_of_ne_zero fun hzero => h.2.2 (BitVec.eq_of_toNat_eq hzero)

theorem IsTarget.succ_lt {nBits : UInt32} (h : IsTarget nBits) : target nBits + 1 < 2 ^ 256 := by
  have hfloor := compactFloor_compactValue nBits
  rw [← setCompact_toNat h.2.1] at hfloor
  have hlt : target nBits < 2 ^ 256 := (setCompact nBits).value.isLt
  have hne : target nBits ≠ 2 ^ 256 - 1 := by
    intro hmax
    have hmax' : (setCompact nBits).value.toNat = 2 ^ 256 - 1 := hmax
    rw [hmax'] at hfloor
    exact absurd hfloor (by decide +kernel)
  omega

theorem quotient_eq {N t : ℕ} (h : t < N) : (N - 1 - t) / (t + 1) + 1 = N / (t + 1) := by
  have hsplit : N = (N - 1 - t) + (t + 1) := by omega
  conv_rhs => rw [hsplit]
  rw [Nat.add_div_right _ (Nat.succ_pos t)]

theorem getBlockProof_eq {nBits : UInt32} (h : IsTarget nBits) :
    ∃ proof, getBlockProof nBits = some proof ∧
      proof.toNat = 2 ^ 256 / (target nBits + 1) := by
  have hpos := h.pos
  have hsucc := h.succ_lt
  obtain ⟨hnegative, hoverflow, hne⟩ := h
  have hnext : ((setCompact nBits).value + 1).toNat = target nBits + 1 := by
    rw [BitVec.toNat_add]
    exact Nat.mod_eq_of_lt hsucc
  have hnot : (~~~(setCompact nBits).value).toNat = 2 ^ 256 - 1 - target nBits := BitVec.toNat_not
  obtain ⟨c, hc, hquot⟩ := divide_eq (~~~(setCompact nBits).value)
    (show 0 < ((setCompact nBits).value + 1).toNat by rw [hnext]; exact Nat.succ_pos _)
  rw [hnot, hnext] at hquot
  have hsum : c.toNat + 1 = 2 ^ 256 / (target nBits + 1) := by
    rw [hquot]
    exact quotient_eq (by omega)
  have hsmall : 2 ^ 256 / (target nBits + 1) < 2 ^ 256 :=
    Nat.div_lt_self (by decide) (by omega)
  have hno : ¬ ((setCompact nBits).fNegative = true ∨ (setCompact nBits).fOverflow = true ∨
      (setCompact nBits).value = 0) := by
    rw [hnegative, hoverflow]
    rintro (hn | ho | hz)
    · exact Bool.false_ne_true hn
    · exact Bool.false_ne_true ho
    · exact hne hz
  refine ⟨c + 1, ?_, ?_⟩
  · unfold getBlockProof
    dsimp only
    rw [if_neg hno, hc]
    rfl
  · rw [BitVec.toNat_add, ← hsum]
    refine Nat.mod_eq_of_lt ?_
    show c.toNat + 1 < 2 ^ 256
    omega

theorem getBlockProof_of_not {nBits : UInt32} (h : ¬ IsTarget nBits) :
    getBlockProof nBits = some 0 := by
  refine if_pos ?_
  by_contra hno
  refine h ⟨?_, ?_, ?_⟩
  · exact Bool.eq_false_iff.mpr fun hn => hno (.inl hn)
  · exact Bool.eq_false_iff.mpr fun ho => hno (.inr (.inl ho))
  · exact fun hz => hno (.inr (.inr hz))

theorem one_le_quotient {nBits : UInt32} (h : IsTarget nBits) :
    1 ≤ 2 ^ 256 / (target nBits + 1) := by
  have hsucc := h.succ_lt
  exact (Nat.one_le_div_iff (Nat.succ_pos _)).mpr hsucc.le

theorem isTarget_of_checkProofOfWork {powLimit hash : UInt256} {nBits : UInt32}
    (h : checkProofOfWork powLimit hash nBits = true) : IsTarget nBits := by
  unfold checkProofOfWork at h
  dsimp only at h
  split at h
  next => exact absurd h Bool.false_ne_true
  next hno =>
    refine ⟨?_, ?_, ?_⟩
    · exact Bool.eq_false_iff.mpr fun hn => hno (.inl hn)
    · exact Bool.eq_false_iff.mpr fun ho => hno (.inr (.inr (.inl ho)))
    · exact fun hz => hno (.inr (.inl hz))

/-! ### The work of a chain -/

/-- The sum, of any size. -/
def totalWork (chain : List CBlockHeader) : ℕ :=
  (chain.map fun block => 2 ^ 256 / (target block.nBits + 1)).sum

theorem totalWork_cons (block : CBlockHeader) (chain : List CBlockHeader) :
    totalWork (block :: chain) = 2 ^ 256 / (target block.nBits + 1) + totalWork chain := by
  rw [totalWork, List.map_cons, List.sum_cons]
  rfl

theorem nChainWork_eq : ∀ {chain : List CBlockHeader},
    (∀ block ∈ chain, IsTarget block.nBits) →
    ∃ work, nChainWork chain = some work ∧ work.toNat = totalWork chain % 2 ^ 256 := by
  intro chain
  induction chain with
  | nil => exact fun _ => ⟨0, rfl, rfl⟩
  | cons block chain ih =>
    intro h
    obtain ⟨work, hwork, hnat⟩ := ih fun b hb => h b (List.mem_cons_of_mem _ hb)
    obtain ⟨proof, hproof, hquot⟩ := getBlockProof_eq (h block List.mem_cons_self)
    refine ⟨work + proof, ?_, ?_⟩
    · rw [nChainWork, hwork, hproof]
      rfl
    · rw [BitVec.toNat_add, hnat, hquot, totalWork_cons, Nat.mod_add_mod, Nat.add_comm]

/-- Every block has more work than the one before it. -/
def Increasing (chain : List CBlockHeader) : Prop :=
  ∀ block rest, block :: rest <:+ chain → ∃ work work', nChainWork rest = some work ∧
    nChainWork (block :: rest) = some work' ∧ work < work'

theorem work_lt_iff {block : CBlockHeader} {rest : List CBlockHeader}
    (h : ∀ b ∈ block :: rest, IsTarget b.nBits) (hrest : totalWork rest < 2 ^ 256) :
    (∃ work work', nChainWork rest = some work ∧ nChainWork (block :: rest) = some work' ∧
      work < work') ↔ totalWork (block :: rest) < 2 ^ 256 := by
  have htarget := h block List.mem_cons_self
  obtain ⟨work, hwork, hnat⟩ := nChainWork_eq fun b hb => h b (List.mem_cons_of_mem block hb)
  obtain ⟨work', hwork', hnat'⟩ := nChainWork_eq h
  have hone := one_le_quotient htarget
  have hless : 2 ^ 256 / (target block.nBits + 1) < 2 ^ 256 :=
    Nat.div_lt_self (by decide) (by have := htarget.pos; omega)
  have hsum := totalWork_cons block rest
  rw [Nat.mod_eq_of_lt hrest] at hnat
  constructor
  · rintro ⟨w, w', hw, hw', hlt⟩
    obtain rfl := Option.some.inj (hwork.symm.trans hw)
    obtain rfl := Option.some.inj (hwork'.symm.trans hw')
    have hlt' : work.toNat < work'.toNat := hlt
    -- a wrapped sum is below what it started from
    by_contra hge
    rw [hnat, hnat', Nat.mod_eq_sub_mod (Nat.le_of_not_lt hge),
      Nat.mod_eq_of_lt (by omega)] at hlt'
    omega
  · intro hlt
    refine ⟨work, work', hwork, hwork', ?_⟩
    show work.toNat < work'.toNat
    rw [hnat, hnat', Nat.mod_eq_of_lt hlt, hsum]
    omega

theorem increasing_iff : ∀ {chain : List CBlockHeader},
    (∀ block ∈ chain, IsTarget block.nBits) →
    (Increasing chain ↔ totalWork chain < 2 ^ 256) := by
  intro chain
  induction chain with
  | nil =>
    refine fun _ => ⟨fun _ => by decide, fun _ block rest h => ?_⟩
    exact absurd (List.suffix_nil.mp h) (List.cons_ne_nil _ _)
  | cons block chain ih =>
    intro h
    have hih := ih fun b hb => h b (List.mem_cons_of_mem block hb)
    constructor
    · intro hinc
      have hrest := hih.mp fun b rest hs => hinc b rest (hs.trans (List.suffix_cons block chain))
      exact (work_lt_iff h hrest).mp (hinc block chain (List.suffix_refl _))
    · intro hlt b rest hs
      have hrest : totalWork chain < 2 ^ 256 := by
        refine lt_of_le_of_lt ?_ hlt
        rw [totalWork_cons]
        exact Nat.le_add_left _ _
      rcases List.suffix_cons_iff.mp hs with heq | hs
      · obtain ⟨rfl, rfl⟩ := List.cons.inj heq
        exact (work_lt_iff h hrest).mpr hlt
      · exact hih.mpr hrest b rest hs

/-- **`GetBlockProof` is the exact expected work**, and the work of a chain whose headers pass
`CheckProofOfWork` grows exactly if its sum fits into 256 bits. -/
theorem getBlockProof_chain_work :
    (∀ nBits, ¬ IsTarget nBits → getBlockProof nBits = some 0) ∧
    (∀ nBits, IsTarget nBits → target nBits + 1 < 2 ^ 256 ∧
      ∃ proof, getBlockProof nBits = some proof ∧
        proof.toNat = 2 ^ 256 / (target nBits + 1) ∧ 1 ≤ proof.toNat) ∧
    (∀ nBits nBits' proof proof', IsTarget nBits → IsTarget nBits' →
      target nBits ≤ target nBits' → getBlockProof nBits = some proof →
      getBlockProof nBits' = some proof' → proof' ≤ proof) ∧
    ∀ powLimit chain,
      (∀ block ∈ chain, checkProofOfWork powLimit block.hash block.nBits = true) →
      (Increasing chain ↔ totalWork chain < 2 ^ 256) := by
  refine ⟨fun nBits => getBlockProof_of_not, fun nBits h => ?_, ?_, fun powLimit chain h => ?_⟩
  · obtain ⟨proof, hproof, hquot⟩ := getBlockProof_eq h
    exact ⟨h.succ_lt, proof, hproof, hquot, hquot ▸ one_le_quotient h⟩
  · intro nBits nBits' proof proof' h h' hle hproof hproof'
    obtain ⟨p, hp, hquot⟩ := getBlockProof_eq h
    obtain ⟨p', hp', hquot'⟩ := getBlockProof_eq h'
    obtain rfl := Option.some.inj (hp.symm.trans hproof)
    obtain rfl := Option.some.inj (hp'.symm.trans hproof')
    show p'.toNat ≤ p.toNat
    rw [hquot, hquot']
    exact Nat.div_le_div_left (by omega) (Nat.succ_pos _)
  · exact increasing_iff fun block hb => isTarget_of_checkProofOfWork (h block hb)

def lowestTargets : List CBlockHeader := [⟨1, 0x01010000⟩, ⟨0, 0x01010000⟩]

/-- **The sum may not fit**: the second block of target one has no work. -/
theorem lowestTargets_wrap :
    (∀ block ∈ lowestTargets,
      checkProofOfWork (BitVec.ofNat 256 (0xfffff * 2 ^ 216)) block.hash block.nBits = true) ∧
      nChainWork lowestTargets = some 0 ∧ ¬ Increasing lowestTargets := by
  have htarget : ∀ block ∈ lowestTargets, IsTarget block.nBits := by decide +kernel
  refine ⟨by decide +kernel, by decide +kernel, fun h => ?_⟩
  have hsum := (increasing_iff htarget).mp h
  exact absurd hsum (by decide +kernel)

end Stonecoin.ChainWork
