/-
Computations that may stop with an error, in `Except`: what they ensure, and when the
results of one are results of another.

`Ensures Q P x` says that `x` ends with a result that meets `P` or with an error that meets
`Q`; `Refines x y` that every result of `x` is the result of `y`.  Both go through sequencing
and branching.

  * `Ensures.bind`, `Ensures.ite`, `Ensures.imp`: the rules for what is ensured;
  * `Refines.bind`, `Refines.ite`, `Refines.check`: the rules for refinement.
-/
import Mathlib.Logic.Basic

namespace Outcomes

variable {ε ε' α β : Type}

/-- Results meet `P` and errors meet `Q`. -/
def Ensures (Q : ε → Prop) (P : α → Prop) : Except ε α → Prop
  | .ok a => P a
  | .error e => Q e

section

variable {Q Q' : ε → Prop} {P P' : α → Prop} {R : β → Prop}

@[simp] theorem ensures_ok {a : α} : Ensures Q P (.ok a) ↔ P a := Iff.rfl

@[simp] theorem ensures_error {e : ε} : Ensures Q P (.error e : Except ε α) ↔ Q e := Iff.rfl

/-- Consequence. -/
theorem Ensures.imp {x : Except ε α} (h : Ensures Q P x) (hQ : ∀ e, Q e → Q' e)
    (hP : ∀ a, P a → P' a) : Ensures Q' P' x := by
  cases x with
  | error e => exact hQ e h
  | ok a => exact hP a h

/-- Sequencing. -/
theorem Ensures.bind {x : Except ε α} {f : α → Except ε β} (h : Ensures Q P x)
    (hf : ∀ a, P a → Ensures Q R (f a)) : Ensures Q R (x >>= f) := by
  cases x with
  | error e => exact h
  | ok a => exact hf a h

/-- Branching. -/
theorem Ensures.ite {c : Prop} [Decidable c] {x y : Except ε α} (hx : c → Ensures Q P x)
    (hy : ¬ c → Ensures Q P y) : Ensures Q P (if c then x else y) := by
  split
  next h => exact hx h
  next h => exact hy h

/-- What is known of the result may be added. -/
theorem Ensures.and_ok {x : Except ε α} (h : Ensures Q P x) (h' : ∀ a, x = .ok a → P' a) :
    Ensures Q (fun a => P a ∧ P' a) x := by
  cases x with
  | error e => exact h
  | ok a => exact ⟨h, h' a rfl⟩

theorem Ensures.of_ok {x : Except ε α} (h : Ensures Q P x) {a : α} (ha : x = .ok a) : P a := by
  subst ha
  exact h

end

/-! ### Refinement -/

/-- Every result of `x` is the result of `y`. -/
def Refines (x : Except ε α) (y : Except ε' α) : Prop := ∀ a, x = .ok a → y = .ok a

theorem Refines.refl (x : Except ε α) : Refines x x := fun _ h => h

/-- An error is refined by anything. -/
theorem Refines.error (e : ε) (y : Except ε' α) : Refines (.error e) y := by
  intro a h
  cases h

theorem Refines.bind {x : Except ε α} {y : Except ε' α} {f : α → Except ε β}
    {g : α → Except ε' β} (h : Refines x y) (hf : ∀ a, Refines (f a) (g a)) :
    Refines (x >>= f) (y >>= g) := by
  intro b hb
  cases x with
  | error e => cases hb
  | ok a =>
    rw [h a rfl]
    exact hf a b hb

theorem Refines.ite {c : Prop} [Decidable c] {x x' : Except ε α} {y y' : Except ε' α}
    (hx : c → Refines x y) (hy : ¬ c → Refines x' y') :
    Refines (if c then x else x') (if c then y else y') := by
  split
  next h => exact hx h
  next h => exact hy h

/-- A check that stops less often. -/
theorem Refines.check {c d : Prop} [Decidable c] [Decidable d] {e : ε} {e' : ε'}
    {x : Except ε α} {y : Except ε' α} (hcd : d → c) (h : Refines x y) :
    Refines (if c then .error e else x) (if d then .error e' else y) := by
  intro a ha
  split at ha
  next => cases ha
  next hc => rw [if_neg fun hd => hc (hcd hd), h a ha]

end Outcomes
