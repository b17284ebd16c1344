/-
Ballots on options that compete for a resource, for any options, resources and voters.

Ballots are sound if on one resource a voter is for one option only and the voter is
entitled to vote on it.  A ballot of an entitled voter who is for no other option keeps them
sound, and so does forgetting ballots.

  * `Sound.agreement`: two options with more votes together than there are entitled voters
                        are the same.
-/
import Mathlib.Data.Finset.Card

namespace Quorums

variable {T R V : Type*} {entitled : R → Finset V} {ballot ballot' : T → R → V → Prop}

/-- Every voter is entitled and is for one option only. -/
structure Sound (entitled : R → Finset V) (ballot : T → R → V → Prop) : Prop where
  once : ∀ t t' r v, ballot t r v → ballot t' r v → t = t'
  entitled : ∀ t r v, ballot t r v → v ∈ entitled r

namespace Sound

/-- Ballots may be forgotten. -/
theorem mono (h : Sound entitled ballot) (hle : ∀ t r v, ballot' t r v → ballot t r v) :
    Sound entitled ballot' where
  once t t' r v hb hb' := h.once t t' r v (hle t r v hb) (hle t' r v hb')
  entitled t r v hb := h.entitled t r v (hle t r v hb)

/-- A voter who is for no other option casts a ballot. -/
theorem cast (h : Sound entitled ballot) {t : T} {r : R} {v : V} (hv : v ∈ entitled r)
    (hfree : ∀ t', ballot t' r v → t' = t)
    (hle : ∀ t' r' v', ballot' t' r' v' → ballot t' r' v' ∨ t' = t ∧ r' = r ∧ v' = v) :
    Sound entitled ballot' := by
  refine ⟨fun t₁ t₂ r' v' h₁ h₂ => ?_, fun t₁ r' v' h₁ => ?_⟩
  · rcases hle _ _ _ h₁ with h₁ | ⟨rfl, rfl, rfl⟩ <;> rcases hle _ _ _ h₂ with h₂ | ⟨he, hr, hv'⟩
    · exact h.once _ _ _ _ h₁ h₂
    · subst he hr hv'
      exact hfree _ h₁
    · exact (hfree _ h₂).symm
    · exact he.symm
  · rcases hle _ _ _ h₁ with h₁ | ⟨-, rfl, rfl⟩
    · exact h.entitled _ _ _ h₁
    · exact hv

theorem agreement [DecidableEq V] (h : Sound entitled ballot) {t t' : T} {r : R} {A B : Finset V}
    (hA : ∀ v ∈ A, ballot t r v) (hB : ∀ v ∈ B, ballot t' r v)
    (hcard : (entitled r).card < A.card + B.card) : t = t' := by
  have hsub : A ∪ B ⊆ entitled r := by
    intro v hv
    rcases Finset.mem_union.mp hv with hv | hv
    · exact h.entitled _ _ _ (hA v hv)
    · exact h.entitled _ _ _ (hB v hv)
  have hunion := Finset.card_le_card hsub
  have hinter := Finset.card_union_add_card_inter A B
  obtain ⟨v, hv⟩ : (A ∩ B).Nonempty := by
    rw [← Finset.card_pos]
    omega
  rw [Finset.mem_inter] at hv
  exact h.once _ _ _ _ (hA v hv.1) (hB v hv.2)

end Sound

end Quorums
