/-
Dependencies without cycles, and lists that are ordered by them.

  * `wellFounded_of_acyclic`: a finite relation without cycles is well-founded;
  * `all_of_waiting`: if what is missing waits for something that is missing, nothing is;
  * `ordered_append`: a list is ordered if each element comes after what it depends on.
-/
import Mathlib.Order.WellFoundedSet

namespace Dependencies

variable {ν : Type*} {r : ν → ν → Prop}

theorem wellFounded_of_acyclic {s : Set ν} (hs : s.Finite)
    (hmem : ∀ u v, r u v → u ∈ s ∧ v ∈ s) (h : ∀ v, ¬ Relation.TransGen r v v) : WellFounded r := by
  have horder : IsStrictOrder ν (Relation.TransGen r) :=
    { irrefl := h, trans := fun _ _ _ => Relation.TransGen.trans }
  have hwf := Set.wellFoundedOn_iff.mp (Set.Finite.wellFoundedOn (r := Relation.TransGen r) hs)
  refine Subrelation.wf (fun {u v} huv => ?_) hwf
  exact ⟨Relation.TransGen.single huv, hmem u v huv⟩

theorem all_of_waiting (hr : WellFounded r) {missing : ν → Prop}
    (h : ∀ v, missing v → ∃ u, r u v ∧ missing u) (v : ν) : ¬ missing v := by
  induction v using hr.induction with
  | h v ih =>
    intro hv
    obtain ⟨u, hu, hmissing⟩ := h v hv
    exact ih u hu hmissing

/-- Each element comes after what it depends on. -/
def Ordered (r : ν → ν → Prop) (l : List ν) : Prop :=
  ∀ l₁ v l₂, l = l₁ ++ v :: l₂ → ∀ u, r u v → u ∈ l₁

theorem ordered_nil : Ordered r [] := by
  intro l₁ v l₂ h
  cases l₁ <;> cases h

theorem Ordered.append {l : List ν} (h : Ordered r l) {v : ν} (hv : ∀ u, r u v → u ∈ l) :
    Ordered r (l ++ [v]) := by
  intro l₁ w l₂ heq u hu
  rcases List.eq_nil_or_concat l₂ with rfl | ⟨l₃, x, rfl⟩
  · obtain ⟨rfl, hlast⟩ := List.append_inj' heq rfl
    obtain rfl := (List.cons.inj hlast).1
    exact hv u hu
  · rw [List.concat_eq_append, ← List.cons_append, ← List.append_assoc] at heq
    obtain ⟨hinit, -⟩ := List.append_inj' heq rfl
    exact h l₁ w l₃ hinit u hu

end Dependencies
