/-
The index of the masternodes (`class CMasternodeIndex` of `masternodeman.h`): numbers for
outpoints, from zero on, and back.

`std::map<CTxIn, int>` compares its keys by their outpoints.
-/
import Stonecoin.GovernanceManager

namespace Stonecoin

structure CMasternodeIndex where
  nSize : ℤ
  mapIndex : AList fun _ : COutPoint => ℤ
  mapReverseIndex : AList fun _ : ℤ => CTxIn

namespace CMasternodeIndex

def empty : CMasternodeIndex := ⟨0, ∅, ∅⟩

def get (index : CMasternodeIndex) (nIndex : ℤ) : Option CTxIn :=
  index.mapReverseIndex.lookup nIndex

def getMasternodeIndex (index : CMasternodeIndex) (vinMasternode : CTxIn) : ℤ :=
  (index.mapIndex.lookup vinMasternode.prevout).getD (-1)

def addMasternodeVIN (index : CMasternodeIndex) (vinMasternode : CTxIn) : CMasternodeIndex :=
  if (index.mapIndex.lookup vinMasternode.prevout).isSome then index
  else
    { nSize := index.nSize + 1
      mapIndex := index.mapIndex.insert vinMasternode.prevout index.nSize
      mapReverseIndex := index.mapReverseIndex.insert index.nSize vinMasternode }

/-- **The two maps are inverse to each other**, on the numbers from 0 to `nSize - 1`. -/
structure Numbers (index : CMasternodeIndex) : Prop where
  inverse : ∀ out i, index.mapIndex.lookup out = some i ↔
    ∃ vin, index.get i = some vin ∧ vin.prevout = out
  range : ∀ i, (index.get i).isSome = true ↔ 0 ≤ i ∧ i < index.nSize
  nSize_nonneg : 0 ≤ index.nSize

variable {index : CMasternodeIndex} {vin vin' : CTxIn} {i j : ℤ}

theorem numbers_empty : empty.Numbers := by
  refine ⟨fun out i => ?_, fun i => ?_, Int.le_refl 0⟩
  · simp [empty, get]
  · simp [empty, get]

namespace Numbers

variable (h : index.Numbers)
include h

theorem get_eq_some (hget : index.get i = some vin) :
    index.getMasternodeIndex vin = i ∧ 0 ≤ i ∧ i < index.nSize := by
  have hlookup := (h.inverse vin.prevout i).mpr ⟨vin, hget, rfl⟩
  refine ⟨?_, (h.range i).mp (by rw [hget]; rfl)⟩
  rw [getMasternodeIndex, hlookup]
  rfl

theorem getMasternodeIndex_nonneg (hindex : 0 ≤ index.getMasternodeIndex vin) :
    ∃ vin', index.get (index.getMasternodeIndex vin) = some vin' ∧ vin'.prevout = vin.prevout := by
  cases hlookup : index.mapIndex.lookup vin.prevout with
  | none =>
    rw [getMasternodeIndex, hlookup] at hindex
    exact absurd hindex (by decide)
  | some i =>
    have hi : index.getMasternodeIndex vin = i := by
      rw [getMasternodeIndex, hlookup]
      rfl
    rw [hi]
    exact (h.inverse vin.prevout i).mp hlookup

theorem eq_of_prevout (hi : index.get i = some vin) (hj : index.get j = some vin')
    (hout : vin.prevout = vin'.prevout) : i = j := by
  have hlookup := (h.inverse vin.prevout i).mpr ⟨vin, hi, rfl⟩
  have hlookup' := (h.inverse vin.prevout j).mpr ⟨vin', hj, hout.symm⟩
  exact Option.some.inj (hlookup.symm.trans hlookup')

theorem get_nSize : index.get index.nSize = none := by
  cases hget : index.get index.nSize with
  | none => rfl
  | some vin =>
    have hrange := (h.range index.nSize).mp (by rw [hget]; rfl)
    exact absurd hrange.2 (lt_irrefl _)

theorem get_addMasternodeVIN (hget : index.get i = some vin) (vin' : CTxIn) :
    (index.addMasternodeVIN vin').get i = some vin := by
  have hlt := (h.get_eq_some hget).2.2
  rw [addMasternodeVIN]
  split_ifs
  · exact hget
  · rw [get, AList.lookup_insert_ne (by omega)]
    exact hget

theorem addMasternodeVIN (vin : CTxIn) : (index.addMasternodeVIN vin).Numbers := by
  rw [CMasternodeIndex.addMasternodeVIN]
  split_ifs with hknown
  · exact h
  · have hnone : index.mapIndex.lookup vin.prevout = none := by simpa using hknown
    have hfree := h.get_nSize
    have hget : ∀ i, CMasternodeIndex.get ⟨index.nSize + 1,
        index.mapIndex.insert vin.prevout index.nSize,
        index.mapReverseIndex.insert index.nSize vin⟩ i =
        if i = index.nSize then some vin else index.get i := by
      intro i
      show AList.lookup i _ = _
      split_ifs with hi
      · rw [hi, AList.lookup_insert]
      · rw [AList.lookup_insert_ne hi]
        rfl
    refine ⟨fun out i => ?_, fun i => ?_, ?_⟩
    · rw [hget]
      rcases eq_or_ne out vin.prevout with rfl | hout
      · rw [AList.lookup_insert]
        constructor
        · intro hi
          rw [if_pos (Option.some.inj hi).symm]
          exact ⟨vin, rfl, rfl⟩
        · rintro ⟨vin', hi, hvin'⟩
          split_ifs at hi with heq
          · rw [heq]
          · rw [(h.inverse _ i).mpr ⟨vin', hi, hvin'⟩] at hnone
            exact absurd hnone (by simp)
      · rw [AList.lookup_insert_ne hout, h.inverse out i]
        constructor
        · rintro ⟨vin', hi, rfl⟩
          have hne : i ≠ index.nSize := by
            rintro rfl
            rw [hfree] at hi
            exact absurd hi (by simp)
          exact ⟨vin', by rw [if_neg hne]; exact hi, rfl⟩
        · rintro ⟨vin', hi, rfl⟩
          split_ifs at hi with heq
          · rw [Option.some.inj hi] at hout
            exact absurd rfl hout
          · exact ⟨vin', hi, rfl⟩
    · rw [hget]
      have hrange := h.range i
      have hsize := h.nSize_nonneg
      show _ ↔ 0 ≤ i ∧ i < index.nSize + 1
      split_ifs with heq
      · simp only [Option.isSome_some, true_iff]
        omega
      · rw [hrange]
        omega
    · have hsize := h.nSize_nonneg
      show 0 ≤ index.nSize + 1
      omega

end Numbers

end CMasternodeIndex

end Stonecoin
