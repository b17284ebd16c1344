/-
Runs of a labelled transition relation, for any states and events.

  * `Run.invariant`: what every transition keeps holds after every run;
  * `Run.history`: the same for properties of the events so far;
  * `Run.simulation`: transitions matched one by one give matching runs;
  * `Run.filterSimulation`: the same when the other side only sees some of the events
                              and the rest keep the relation.

`Guarded` turns a step function into a transition relation whose events must meet a
condition in the state they are applied to.
-/
import Mathlib.Data.List.Basic

namespace Runs

variable {σ τ ι : Type*}

/-- A run from one state to another through a list of events. -/
inductive Run (trans : σ → ι → σ → Prop) : σ → List ι → σ → Prop
  | nil (s : σ) : Run trans s [] s
  | cons {s s' s'' : σ} {i : ι} {es : List ι} :
      trans s i s' → Run trans s' es s'' → Run trans s (i :: es) s''

/-- The transitions of a step function whose events meet a condition. -/
def Guarded (guard : σ → ι → Prop) (step : σ → ι → σ) (s : σ) (i : ι) (s' : σ) : Prop :=
  guard s i ∧ s' = step s i

namespace Run

variable {trans : σ → ι → σ → Prop} {trans' : τ → ι → τ → Prop}

variable {s s' : σ} {es : List ι}

/-- Runs compose. -/
theorem append {s'' : σ} {fs : List ι} (h : Run trans s es s') (h' : Run trans s' fs s'') :
    Run trans s (es ++ fs) s'' := by
  induction h with
  | nil s => exact h'
  | cons ht _ ih => exact .cons ht (ih h')

/-- A run may be extended by one transition at its end. -/
theorem snoc {s'' : σ} {i : ι} (h : Run trans s es s') (ht : trans s' i s'') :
    Run trans s (es ++ [i]) s'' :=
  h.append (.cons ht (.nil _))

theorem invariant {I : σ → Prop} (hstep : ∀ s i s', I s → trans s i s' → I s')
    (h : Run trans s es s') (h0 : I s) : I s' := by
  induction h with
  | nil s => exact h0
  | cons ht _ ih => exact ih (hstep _ _ _ h0 ht)

theorem history {I : List ι → σ → Prop} {s₀ : σ}
    (hstep : ∀ es s i s', Run trans s₀ es s → I es s → trans s i s' → I (es ++ [i]) s')
    (h : Run trans s₀ es s) (h0 : I [] s₀) : I es s := by
  have hfrom : ∀ {s' s'' : σ} {fs : List ι}, Run trans s' fs s'' → ∀ {es' : List ι},
      Run trans s₀ es' s' → I es' s' → I (es' ++ fs) s'' := by
    intro s' s'' fs hrest
    induction hrest with
    | nil s =>
      intro es' _ hs
      rw [List.append_nil]
      exact hs
    | @cons s s' s'' i es ht _ ih =>
      intro es' hes' hs
      have hnext := ih (hes'.snoc ht) (hstep es' s i s' hes' hs ht)
      rwa [List.append_assoc] at hnext
  exact hfrom h (.nil s₀) h0

/-- **Filtered simulation rule.**  Events that pass the filter are matched by the other
side, the others are not seen there and keep the relation. -/
theorem filterSimulation {R : σ → τ → Prop} (p : ι → Bool)
    (hmatch : ∀ s t i s', R s t → p i = true → trans s i s' → ∃ t', trans' t i t' ∧ R s' t')
    (hskip : ∀ s t i s', R s t → p i = false → trans s i s' → R s' t) (h : Run trans s es s') :
    ∀ {t : τ}, R s t → ∃ t', Run trans' t (es.filter p) t' ∧ R s' t' := by
  induction h with
  | nil s => intro t hR; exact ⟨t, .nil t, hR⟩
  | @cons s s' s'' i es ht _ ih =>
    intro t hR
    cases hp : p i with
    | true =>
      obtain ⟨t₁, ht₁, hR₁⟩ := hmatch s t i s' hR hp ht
      obtain ⟨t₂, hrun, hR₂⟩ := ih hR₁
      exact ⟨t₂, by simpa [hp] using .cons ht₁ hrun, hR₂⟩
    | false =>
      obtain ⟨t₂, hrun, hR₂⟩ := ih (hskip s t i s' hR hp ht)
      exact ⟨t₂, by simpa [hp] using hrun, hR₂⟩

theorem simulation {R : σ → τ → Prop}
    (hmatch : ∀ s t i s', R s t → trans s i s' → ∃ t', trans' t i t' ∧ R s' t')
    (h : Run trans s es s') {t : τ} (hR : R s t) :
    ∃ t', Run trans' t es t' ∧ R s' t' := by
  have hfs := h.filterSimulation (fun _ => true) (fun s t i s' hR _ ht => hmatch s t i s' hR ht)
    (fun s t i s' _ hp _ => by simp at hp) hR
  simpa using hfs

end Run

/-- Every event of a list meets the condition when its turn comes. -/
def Admits (guard : σ → ι → Prop) (step : σ → ι → σ) : σ → List ι → Prop
  | _, [] => True
  | s, i :: es => guard s i ∧ Admits guard step (step s i) es

variable {guard : σ → ι → Prop} {step : σ → ι → σ}

/-- Lists are taken one after the other. -/
theorem admits_append {fs : List ι} :
    ∀ {es : List ι} {s : σ}, Admits guard step s (es ++ fs) ↔
      Admits guard step s es ∧ Admits guard step (es.foldl step s) fs
  | [], _ => (iff_of_eq (true_and _)).symm
  | i :: es, s => by
    show guard s i ∧ Admits guard step (step s i) (es ++ fs) ↔ (guard s i ∧ _) ∧ _
    rw [admits_append, and_assoc]
    rfl

/-- Events that always meet the condition. -/
theorem admits_of_forall :
    ∀ {es : List ι} {s : σ}, (∀ i ∈ es, ∀ s, guard s i) → Admits guard step s es
  | [], _, _ => trivial
  | i :: _, s, h =>
    ⟨h i List.mem_cons_self s, admits_of_forall fun i hi => h i (List.mem_cons_of_mem _ hi)⟩

/-- Two conditions that agree while an invariant holds, and keep it, admit the same lists. -/
theorem admits_iff {I : σ → Prop} {guard' : σ → ι → Prop}
    (hiff : ∀ s i, I s → (guard s i ↔ guard' s i)) (hstep : ∀ s i, I s → guard s i → I (step s i)) :
    ∀ {es : List ι} {s : σ}, I s → (Admits guard step s es ↔ Admits guard' step s es)
  | [], _, _ => Iff.rfl
  | i :: _, s, hs => by
    show guard s i ∧ _ ↔ guard' s i ∧ _
    rw [← hiff s i hs]
    exact and_congr_right fun hi => admits_iff hiff hstep (hstep s i hs hi)

/-- Such a list is a run to the fold of the step function. -/
theorem Run.of_admits :
    ∀ {es : List ι} {s : σ}, Admits guard step s es →
      Run (Guarded guard step) s es (es.foldl step s) := by
  intro es
  induction es with
  | nil => exact fun _ => .nil _
  | cons i es ih => exact fun h => .cons ⟨h.1, rfl⟩ (ih h.2)

/-- Events that always meet the condition are a run. -/
theorem Run.of_forall :
    ∀ {es : List ι} {s : σ}, (∀ s, ∀ i ∈ es, guard s i) →
      Run (Guarded guard step) s es (es.foldl step s)
  | [], s, _ => .nil s
  | i :: _, s, h =>
    .cons ⟨h s i List.mem_cons_self, rfl⟩
      (Run.of_forall fun s i hi => h s i (List.mem_cons_of_mem _ hi))

/-- A run of a step function ends where the fold of the function ends. -/
theorem Run.eq_foldl {s s' : σ} {es : List ι} (h : Run (Guarded guard step) s es s') :
    s' = es.foldl step s := by
  induction h with
  | nil s => rfl
  | cons ht _ ih => rw [ih, ht.2]; rfl

end Runs
