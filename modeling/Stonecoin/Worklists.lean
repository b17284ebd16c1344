/-
What is reachable in a graph, and the set of vertices that a worklist collects.

A graph is given by the successors of each vertex.  A worklist takes a vertex from its stage,
adds it to the vertices that are seen and puts its successors that are not seen on the stage.

  * `Collects`: the invariant, its start and its round;
  * `Collects.mem_iff`: when the stage is empty, what is seen is what is reachable;
  * `reach_add_sink`: a new vertex without successors.
-/
import Mathlib.Data.Finset.Card
import Mathlib.Logic.Relation

namespace Worklists

variable {α : Type*}

/-- There is a path. -/
def Reach (next : α → Finset α) : α → α → Prop := Relation.ReflTransGen fun a b => b ∈ next a

variable {next : α → Finset α} {a b x : α}

/-- A path is one of the relation that the successors stand for, backwards. -/
theorem reach_iff_swap {r : α → α → Prop} (h : ∀ a b, b ∈ next a ↔ r b a) :
    Reach next a b ↔ Relation.ReflTransGen r b a := by
  have heq : (fun a b => b ∈ next a) = Function.swap r := by
    funext a b
    exact propext (h a b)
  rw [Reach, heq, Relation.reflTransGen_swap]

theorem reach_add_sink {r r' : α → α → Prop} {h : α} {P : α → Prop}
    (hnew : ∀ a b, r' a b ↔ r a b ∨ (b = h ∧ P a)) (hsink : ∀ b, ¬ r' h b) :
    Relation.ReflTransGen r' a x ↔
      Relation.ReflTransGen r a x ∨ (x = h ∧ ∃ p, P p ∧ Relation.ReflTransGen r a p) := by
  constructor
  · intro hreach
    induction hreach with
    | refl => exact .inl .refl
    | tail _ hb ih =>
      rcases ih with ih | ⟨rfl, -⟩
      · rcases (hnew _ _).mp hb with hb | ⟨rfl, hp⟩
        · exact .inl (ih.tail hb)
        · exact .inr ⟨rfl, _, hp, ih⟩
      · exact absurd hb (hsink _)
  · have hmono : ∀ y, Relation.ReflTransGen r a y → Relation.ReflTransGen r' a y := by
      intro y hreach
      exact Relation.ReflTransGen.mono (fun u v huv => (hnew u v).mpr (.inl huv)) _ _ hreach
    rintro (hreach | ⟨rfl, p, hp, hreach⟩)
    · exact hmono x hreach
    · exact (hmono p hreach).tail ((hnew _ _).mpr (.inr ⟨rfl, hp⟩))

/-! ### The worklist -/

variable [DecidableEq α]

/-- What holds of the stage and of what is seen, when the worklist has started from `roots`. -/
structure Collects (next : α → Finset α) (roots stage seen : Finset α) : Prop where
  disjoint : Disjoint stage seen
  started : roots ⊆ seen ∪ stage
  closed : ∀ a ∈ seen, next a ⊆ seen ∪ stage
  reached : ∀ x ∈ seen ∪ stage, ∃ a ∈ roots, Reach next a x

namespace Collects

variable {roots stage seen : Finset α}

/-- The start. -/
theorem start (next : α → Finset α) (roots : Finset α) : Collects next roots roots ∅ where
  disjoint := Finset.disjoint_empty_right roots
  started := by simp
  closed a ha := absurd ha (Finset.notMem_empty a)
  reached x hx := ⟨x, by simpa using hx, .refl⟩

/-- What one round leaves seen or staged. -/
theorem union_round (ha : a ∈ stage) :
    insert a seen ∪ (stage.erase a ∪ (next a \ insert a seen)) = seen ∪ stage ∪ next a := by
  ext x
  by_cases hx : x = a
  · subst hx
    simp [ha]
  · simp only [Finset.mem_union, Finset.mem_insert, Finset.mem_erase, Finset.mem_sdiff, hx,
      false_or, ne_eq, not_false_eq_true, true_and]
    tauto

theorem round (h : Collects next roots stage seen) (ha : a ∈ stage) :
    Collects next roots (stage.erase a ∪ (next a \ insert a seen)) (insert a seen) where
  disjoint := by
    rw [Finset.disjoint_union_left]
    refine ⟨?_, Finset.sdiff_disjoint⟩
    rw [Finset.disjoint_insert_right]
    exact ⟨Finset.notMem_erase a stage, h.disjoint.mono_left (Finset.erase_subset a stage)⟩
  started := by
    rw [union_round ha]
    exact h.started.trans Finset.subset_union_left
  closed b hb := by
    rw [union_round ha]
    rcases Finset.mem_insert.mp hb with rfl | hb
    · exact Finset.subset_union_right
    · exact (h.closed b hb).trans Finset.subset_union_left
  reached x hx := by
    rw [union_round ha] at hx
    rcases Finset.mem_union.mp hx with hx | hx
    · exact h.reached x hx
    · obtain ⟨root, hroot, hreach⟩ := h.reached a (Finset.mem_union_right seen ha)
      exact ⟨root, hroot, hreach.tail hx⟩

theorem mem_iff (h : Collects next roots ∅ seen) : x ∈ seen ↔ ∃ a ∈ roots, Reach next a x := by
  constructor
  · intro hx
    exact h.reached x (Finset.mem_union_left ∅ hx)
  · rintro ⟨a, ha, hreach⟩
    have hclosed : ∀ b ∈ seen, next b ⊆ seen := by simpa using h.closed
    have hstart : a ∈ seen := by simpa using h.started ha
    induction hreach with
    | refl => exact hstart
    | tail _ hb ih => exact hclosed _ ih hb

/-- A round leaves fewer vertices unseen. -/
theorem card_sdiff_lt {U : Finset α} (h : Collects next roots stage seen) (ha : a ∈ stage)
    (hU : stage ⊆ U) : (U \ insert a seen).card < (U \ seen).card := by
  have hseen : a ∉ seen := Finset.disjoint_left.mp h.disjoint ha
  refine Finset.card_lt_card (Finset.ssubset_iff_subset_ne.mpr
    ⟨Finset.sdiff_subset_sdiff subset_rfl (Finset.subset_insert a seen), fun heq => ?_⟩)
  have hmem : a ∈ U \ insert a seen := heq ▸ Finset.mem_sdiff.mpr ⟨hU ha, hseen⟩
  exact (Finset.mem_sdiff.mp hmem).2 (Finset.mem_insert_self a seen)

end Collects

end Worklists
