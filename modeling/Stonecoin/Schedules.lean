/-
What happens under every schedule of a labelled transition relation, for any states and events.

`Certain trans goal s` says that whichever transitions are taken from `s`, an event of the kind
`goal` comes: there is always a next transition, and one cannot go on for ever without the event.

  * `certain_of_measure`: the rule with a size that every other transition makes smaller.
-/
import Mathlib.Order.Basic

namespace Schedules

variable {σ ι : Type*} {trans : σ → ι → σ → Prop} {goal : ι → Prop} {s : σ}

/-- The event comes under every schedule. -/
inductive Certain (trans : σ → ι → σ → Prop) (goal : ι → Prop) : σ → Prop
  | intro {s : σ} (hsome : ∃ i s', trans s i s')
      (hall : ∀ i s', trans s i s' → ¬ goal i → Certain trans goal s') : Certain trans goal s

theorem certain_of_measure {I : σ → Prop} (size : σ → ℕ) (hsome : ∀ s, I s → ∃ i s', trans s i s')
    (hnext : ∀ s i s', I s → trans s i s' → ¬ goal i → I s' ∧ size s' < size s) (hs : I s) :
    Certain trans goal s := by
  -- induction on the size of the state
  induction hn : size s using Nat.strongRecOn generalizing s with
  | ind n ih =>
    refine .intro (hsome s hs) fun i s' hstep hgoal => ?_
    obtain ⟨hs', hless⟩ := hnext s i s' hs hstep hgoal
    exact ih (size s') (hn ▸ hless) hs' rfl

end Schedules
