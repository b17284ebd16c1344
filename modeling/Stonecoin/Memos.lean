/-
Recursive definitions whose values are kept, and that are evaluated down to a limit.

The value of a node is made of the values of the nodes that it asks for.  Where nothing asks for
itself, at whatever distance, the definition has a solution.  An evaluation keeps each value it
has made, also those that were made of calls it cut off.

  * `solves_solution`: the solution;
  * `eval_right`: an evaluation whose cut calls do no harm is right, and what it keeps stays
                        right.
-/
import Mathlib.Order.WellFounded
import Mathlib.Data.List.Basic

namespace Memos

/-- A recursive definition. -/
structure Recursion (ν β : Type*) where
  next : ν → List ν
  value : ν → List β → β

namespace Recursion

variable {ν β : Type*} (R : Recursion ν β)

/-- `v` asks for `u`. -/
def Asks (u v : ν) : Prop := u ∈ R.next v

def Solves (D : ν → β) : Prop := ∀ v, D v = R.value v ((R.next v).map D)

noncomputable def solution (h : WellFounded R.Asks) : ν → β :=
  h.fix fun v ask => R.value v ((R.next v).attach.map fun u => ask u.1 u.2)

theorem solves_solution (h : WellFounded R.Asks) : R.Solves (R.solution h) := by
  intro v
  rw [solution, WellFounded.fix_eq]
  exact congrArg (R.value v) List.attach_map_val

/-! ### The evaluation -/

/-- The calls for some nodes, one after the other. -/
def evalAll (call : ν → (ν → Option β) → β × (ν → Option β)) :
    List ν → (ν → Option β) → List β × (ν → Option β)
  | [], memo => ([], memo)
  | v :: vs, memo =>
    ((call v memo).1 :: (evalAll call vs (call v memo).2).1, (evalAll call vs (call v memo).2).2)

variable [DecidableEq ν]

/-- The value of a node, with a number of levels that are left. -/
def eval (cut : β) : ℕ → ν → (ν → Option β) → β × (ν → Option β)
  | 0, _, memo => (cut, memo)
  | left + 1, v, memo =>
    (memo v).elim
      (let asked := evalAll (eval cut left) (R.next v) memo
       (R.value v asked.1, Function.update asked.2 v (some (R.value v asked.1))))
      fun b => (b, memo)

/-- The same calls, where the value is the list of the nodes that asked for something below the
limit, and a call that is cut off is `none`. -/
def cutting : Recursion ν (Option (List ν)) where
  next := R.next
  value v asked :=
    some (if asked.any Option.isNone then [v] else asked.flatMap fun us => us.getD [])

/-- The nodes of an evaluation whose calls are cut off. -/
def cuts (left : ℕ) (v : ν) (memo : ν → Option β) : List ν :=
  ((R.cutting.eval none left v fun u => (memo u).map fun _ => some []).1).getD []

/-! ### What is kept -/

/-- What is kept is right. -/
def Right (D : ν → β) (memo : ν → Option β) : Prop := ∀ v b, memo v = some b → b = D v

variable {R}

variable {memo : ν → Option β}

theorem Right.update {D : ν → β} (h : Right D memo) (v : ν) :
    Right D (Function.update memo v (some (D v))) := by
  intro u b hb
  by_cases hu : u = v
  · subst hu
    rw [Function.update_self] at hb
    exact (Option.some.inj hb).symm
  · rw [Function.update_of_ne hu] at hb
    exact h u b hb

/-- The two evaluations keep values for the same nodes. -/
structure Paired (memo : ν → Option β) (marks : ν → Option (Option (List ν))) : Prop where
  same : ∀ u, (memo u).isSome = (marks u).isSome
  lists : ∀ u, marks u ≠ some none

variable {v : ν}

omit [DecidableEq ν] in
theorem Paired.none {marks : ν → Option (Option (List ν))}
    (h : Paired memo marks) (hv : memo v = none) : marks v = Option.none := by
  rw [← Option.isNone_iff_eq_none, ← Option.not_isSome, ← h.same v, hv]
  rfl

theorem Paired.update {marks : ν → Option (Option (List ν))}
    (h : Paired memo marks) (v : ν) (b : β) (us : List ν) :
    Paired (Function.update memo v (some b)) (Function.update marks v (some (some us))) := by
  refine ⟨fun u => ?_, fun u => ?_⟩
  · by_cases hu : u = v
    · subst hu
      simp
    · rw [Function.update_of_ne hu, Function.update_of_ne hu]
      exact h.same u
  · by_cases hu : u = v
    · subst hu
      simp
    · rw [Function.update_of_ne hu]
      exact h.lists u

/-- At the limit nothing is kept. -/
theorem evalAll_zero (cut : β) (vs : List ν) (memo : ν → Option β) :
    evalAll (R.eval cut 0) vs memo = (vs.map fun _ => cut, memo) := by
  induction vs with
  | nil => rfl
  | cons v vs ih =>
    rw [evalAll, eval, ih]
    rfl

variable {left : ℕ}

theorem eval_some {cut : β} {b : β}
    (h : memo v = some b) : R.eval cut (left + 1) v memo = (b, memo) := by
  rw [eval, h]
  rfl

theorem eval_none {cut : β} (h : memo v = none) :
    R.eval cut (left + 1) v memo =
      (R.value v (evalAll (R.eval cut left) (R.next v) memo).1,
        Function.update (evalAll (R.eval cut left) (R.next v) memo).2 v
          (some (R.value v (evalAll (R.eval cut left) (R.next v) memo).1))) := by
  rw [eval, h]
  rfl

/-- What a call for some nodes does: it keeps values for the same nodes as the marking one, and it
is right if the nodes whose calls it cuts off do no harm. -/
structure CallRight (D : ν → β) (harmless : ν → Prop) (memo : ν → Option β)
    (memo' : ν → Option β) (marks' : ν → Option (Option (List ν))) (cutOff : List ν)
    (right : Prop) : Prop where
  paired : Paired memo' marks'
  right : Right D memo → (∀ u ∈ cutOff, harmless u) → right ∧ Right D memo'

variable {D : ν → β} {harmless : ν → Prop}

omit [DecidableEq ν] in
theorem evalAll_right {call : ν → (ν → Option β) → β × (ν → Option β)}
    {mark : ν → (ν → Option (Option (List ν))) →
      Option (List ν) × (ν → Option (Option (List ν)))}
    (hcall : ∀ v memo marks, Paired memo marks → (mark v marks).1 ≠ none ∧
      CallRight D harmless memo (call v memo).2 (mark v marks).2 ((mark v marks).1.getD [])
        ((call v memo).1 = D v)) :
    ∀ vs memo marks, Paired memo marks → (evalAll mark vs marks).1.any Option.isNone = false ∧
      CallRight D harmless memo (evalAll call vs memo).2 (evalAll mark vs marks).2
        ((evalAll mark vs marks).1.flatMap fun us => us.getD [])
        ((evalAll call vs memo).1 = vs.map D) := by
  intro vs
  induction vs with
  | nil =>
    intro memo marks hp
    exact ⟨rfl, hp, fun hr _ => ⟨rfl, hr⟩⟩
  | cons v vs ih =>
    intro memo marks hp
    obtain ⟨hmarked, hfirst⟩ := hcall v memo marks hp
    obtain ⟨hnone, hrest⟩ := ih (call v memo).2 (mark v marks).2 hfirst.paired
    refine ⟨?_, hrest.paired, fun hr hcuts => ?_⟩
    · rw [evalAll, List.any_cons, hnone, Bool.or_false]
      exact Bool.eq_false_iff.mpr fun h => hmarked (Option.isNone_iff_eq_none.mp h)
    · simp only [evalAll, List.flatMap_cons, List.mem_append] at hcuts
      obtain ⟨hvalue, hr₁⟩ := hfirst.right hr fun u hu => hcuts u (Or.inl hu)
      obtain ⟨hvalues, hr₂⟩ := hrest.right hr₁ fun u hu => hcuts u (Or.inr hu)
      refine ⟨?_, hr₂⟩
      rw [evalAll, hvalue, hvalues]
      rfl

/-- A value that is kept. -/
theorem call_known {cut : β}
    {marks : ν → Option (Option (List ν))} {b : β} (hp : Paired memo marks) (hv : memo v = some b) :
    (R.cutting.eval none (left + 1) v marks).1 ≠ none ∧
      CallRight D harmless memo (R.eval cut (left + 1) v memo).2
        (R.cutting.eval none (left + 1) v marks).2
        ((R.cutting.eval none (left + 1) v marks).1.getD [])
        ((R.eval cut (left + 1) v memo).1 = D v) := by
  have hsome : (marks v).isSome = true := by rw [← hp.same v, hv, Option.isSome_some]
  obtain ⟨us, hus⟩ := Option.isSome_iff_exists.mp hsome
  rw [eval_some hv, eval_some hus]
  exact ⟨fun h => hp.lists v (h ▸ hus), hp, fun hr _ => ⟨hr v b hv, hr⟩⟩

theorem call_right (hD : R.Solves D) (cut : β)
    (hharmless : ∀ u, harmless u → R.value u ((R.next u).map fun _ => cut) = D u) :
    ∀ left v memo marks, Paired memo marks →
      (R.cutting.eval none (left + 1) v marks).1 ≠ none ∧
        CallRight D harmless memo (R.eval cut (left + 1) v memo).2
          (R.cutting.eval none (left + 1) v marks).2
          ((R.cutting.eval none (left + 1) v marks).1.getD [])
          ((R.eval cut (left + 1) v memo).1 = D v) := by
  intro left
  induction left with
  | zero =>
    intro v memo marks hp
    cases hv : memo v with
    | some b => exact call_known hp hv
    | none =>
      rw [eval_none hv, eval_none (hp.none hv), evalAll_zero, evalAll_zero]
      refine ⟨Option.some_ne_none _, hp.update v _ _, fun hr hcuts => ?_⟩
      have hvalue : R.value v ((R.next v).map fun _ => cut) = D v := by
        cases hnext : R.next v with
        | nil =>
          rw [hD v, hnext]
          rfl
        | cons u us =>
          -- something was asked for, and it was cut off
          have hcut : R.cutting.value v ((R.cutting.next v).map fun _ => none) = some [v] := by
            show some (if (((R.next v).map fun _ => (none : Option (List ν))).any Option.isNone) =
              true then [v] else _) = some [v]
            rw [hnext]
            rfl
          rw [← hnext]
          exact hharmless v (hcuts v (by rw [hcut]; exact List.mem_singleton_self v))
      rw [hvalue]
      exact ⟨rfl, hr.update v⟩
  | succ left ih =>
    intro v memo marks hp
    cases hv : memo v with
    | some b => exact call_known hp hv
    | none =>
      obtain ⟨hnone, hasked⟩ := evalAll_right ih (R.next v) memo marks hp
      have hlist : R.cutting.value v (evalAll (R.cutting.eval none (left + 1)) (R.next v) marks).1 =
          some ((evalAll (R.cutting.eval none (left + 1)) (R.next v) marks).1.flatMap
            fun us => us.getD []) := by
        show some (if _ = true then [v] else _) = _
        rw [hnone]
        rfl
      rw [eval_none hv, eval_none (hp.none hv)]
      show R.cutting.value v (evalAll (R.cutting.eval none (left + 1)) (R.next v) marks).1 ≠ none ∧ _
      refine ⟨?_, hasked.paired.update v _ _, fun hr hcuts => ?_⟩
      · rw [hlist]
        exact Option.some_ne_none _
      · obtain ⟨hvalues, hr'⟩ := hasked.right hr fun u hu => hcuts u (by
          show u ∈ (R.cutting.value v
            (evalAll (R.cutting.eval none (left + 1)) (R.next v) marks).1).getD []
          rw [hlist]
          exact hu)
        rw [hvalues, ← hD v]
        exact ⟨rfl, hr'.update v⟩

theorem eval_right (hD : R.Solves D) (cut : β)
    (hr : Right D memo)
    (hcuts : ∀ u ∈ R.cuts (left + 1) v memo, R.value u ((R.next u).map fun _ => cut) = D u) :
    (R.eval cut (left + 1) v memo).1 = D v ∧ Right D (R.eval cut (left + 1) v memo).2 := by
  have hpaired : Paired memo fun u => (memo u).map fun _ => some [] := by
    refine ⟨fun u => by rw [Option.isSome_map], fun u h => ?_⟩
    obtain ⟨_, -, h⟩ := Option.map_eq_some_iff.mp h
    cases h
  exact (call_right hD cut (fun _ h => h) left v memo _ hpaired).2.right hr hcuts

end Recursion

end Memos
