/-
Ranks by a comparison function, for any type: a list is sorted from the highest to the lowest
element, and the ranks of its elements are their places, counted from one.

A comparison that tells any two elements of a list apart ranks them in one way only, whatever
order the list has (`sortDown_congr`).  Looking an element up by its key finds a rank exactly
when looking the rank up finds the element (`itemFrom_iff_rank`), and the ranks are all numbers
up to the length of the list (`map_rankFrom`).
-/
import Mathlib.Data.List.Sort

namespace Ranking

variable {α κ : Type*}

/-- A comparison function that orders elements up to ones that are alike. -/
structure Compares (lt : α → α → Bool) : Prop where
  asymm : ∀ a b, lt a b = true → lt b a = false
  trans : ∀ a b c, lt b a = false → lt c b = false → lt c a = false

/-- Sorting: the lowest comes first. -/
def sortUp (lt : α → α → Bool) (l : List α) : List α :=
  l.insertionSort fun a b => lt b a = false

/-- Sorting from the last element of a vector to its first one: the highest comes first. -/
def sortDown (lt : α → α → Bool) (l : List α) : List α :=
  (l.reverse.insertionSort fun a b => lt b a = false).reverse

/-- The place of the first element with a property, counted on from `n`, or -1. -/
def rankFrom (p : α → Bool) : ℤ → List α → ℤ
  | _, [] => -1
  | n, a :: l => if p a then n + 1 else rankFrom p (n + 1) l

/-- The element at a place, with the places counted on from `n`. -/
def itemFrom (r : ℤ) : ℤ → List α → Option α
  | _, [] => none
  | n, a :: l => if n + 1 = r then some a else itemFrom r (n + 1) l

namespace Compares

variable {β : Type*} {lt₁ : β → β → Bool} {lt₂ : α → α → Bool} {f : α → β}

theorem ofLT {κ : Type*} [LinearOrder κ] (f : α → κ) : Compares fun a b => decide (f a < f b) := by
  constructor
  · intro a b hab
    rw [decide_eq_true_eq] at hab
    exact decide_eq_false hab.asymm
  · intro a b c hba hcb
    rw [decide_eq_false_iff_not, not_lt] at hba hcb ⊢
    exact hba.trans hcb

theorem irrefl (h : Compares lt₁) (a : β) : lt₁ a a = false := by
  cases ha : lt₁ a a with
  | false => rfl
  | true => rw [← ha]; exact h.asymm a a ha

theorem comap (h : Compares lt₁) (f : α → β) : Compares fun a b => lt₁ (f a) (f b) :=
  ⟨fun a b => h.asymm (f a) (f b), fun a b c => h.trans (f a) (f b) (f c)⟩

/-- Comparing by `f` first and, where `f` is the same, by something else. -/
theorem lex [DecidableEq β] (h₁ : Compares lt₁)
    (hapart : ∀ x y, lt₁ x y = false → lt₁ y x = false → x = y) (h₂ : Compares lt₂) :
    Compares fun a b => lt₁ (f a) (f b) || (f a = f b && lt₂ a b) := by
  constructor
  · intro a b hab
    rw [Bool.or_eq_true] at hab
    rcases hab with hab | hab
    · have hne : f b ≠ f a := by
        intro he
        rw [he, h₁.irrefl] at hab
        exact absurd hab Bool.false_ne_true
      simp [h₁.asymm _ _ hab, hne]
    · simp only [Bool.and_eq_true, decide_eq_true_eq] at hab
      simp [hab.1, h₁.irrefl, h₂.asymm _ _ hab.2]
  · intro a b c hba hcb
    simp only [Bool.or_eq_false_iff, Bool.and_eq_false_imp, decide_eq_true_eq] at hba hcb ⊢
    refine ⟨h₁.trans _ _ _ hba.1 hcb.1, fun hca => ?_⟩
    -- the middle one is the same, too
    have hab : f a = f b := hapart _ _ (hca ▸ hcb.1) hba.1
    exact h₂.trans a b c (hba.2 hab.symm) (hcb.2 (hca.trans hab))

/-- The same, with the test for a difference first. -/
theorem ite [DecidableEq β] (h₁ : Compares lt₁)
    (hapart : ∀ x y, lt₁ x y = false → lt₁ y x = false → x = y) (h₂ : Compares lt₂) :
    Compares fun a b => if f a = f b then lt₂ a b else lt₁ (f a) (f b) := by
  have heq : (fun a b => if f a = f b then lt₂ a b else lt₁ (f a) (f b)) =
      fun a b => lt₁ (f a) (f b) || (f a = f b && lt₂ a b) := by
    funext a b
    by_cases h : f a = f b
    · simp [h, h₁.irrefl]
    · simp [h]
  rw [heq]
  exact h₁.lex hapart h₂

end Compares

/-! ### Sorting -/

section Sorting

variable {lt : α → α → Bool} {l l' : List α}

theorem sortUp_perm (lt : α → α → Bool) (l : List α) : (sortUp lt l).Perm l :=
  List.perm_insertionSort _ l

theorem sortUp_pairwise (h : Compares lt) (l : List α) :
    (sortUp lt l).Pairwise fun a b => lt b a = false := by
  have : IsTrans α fun a b => lt b a = false := ⟨fun a b c => h.trans a b c⟩
  have : Std.Total fun a b => lt b a = false := by
    refine ⟨fun a b => ?_⟩
    cases hba : lt b a with
    | false => exact .inl rfl
    | true => exact .inr (h.asymm b a hba)
  exact List.pairwise_insertionSort _ _

theorem sortDown_perm (lt : α → α → Bool) (l : List α) : (sortDown lt l).Perm l :=
  ((List.reverse_perm _).trans (sortUp_perm lt l.reverse)).trans (List.reverse_perm l)

theorem sortDown_pairwise (h : Compares lt) (l : List α) :
    (sortDown lt l).Pairwise fun a b => lt a b = false := by
  rw [sortDown, List.pairwise_reverse]
  exact sortUp_pairwise h l.reverse

theorem sortDown_congr (h : Compares lt)
    (hapart : ∀ a ∈ l, ∀ b ∈ l, lt a b = false → lt b a = false → a = b) (hperm : l.Perm l') :
    sortDown lt l = sortDown lt l' := by
  have hmem : ∀ a ∈ sortDown lt l, a ∈ l := fun a => (sortDown_perm lt l).mem_iff.mp
  have hmem' : ∀ a ∈ sortDown lt l', a ∈ l := fun a ha =>
    hperm.mem_iff.mpr ((sortDown_perm lt l').mem_iff.mp ha)
  refine List.Perm.eq_of_pairwise ?_ (sortDown_pairwise h l)
    (sortDown_pairwise h l') ?_
  · exact fun a b ha hb hab hba => hapart a (hmem a ha) b (hmem' b hb) hab hba
  · exact ((sortDown_perm lt l).trans hperm).trans (sortDown_perm lt l').symm

/-- The same from the lowest element on. -/
theorem sortUp_congr (h : Compares lt)
    (hapart : ∀ a ∈ l, ∀ b ∈ l, lt a b = false → lt b a = false → a = b) (hperm : l.Perm l') :
    sortUp lt l = sortUp lt l' := by
  have hmem : ∀ a ∈ sortUp lt l, a ∈ l := fun a => (sortUp_perm lt l).mem_iff.mp
  have hmem' : ∀ a ∈ sortUp lt l', a ∈ l := fun a ha =>
    hperm.mem_iff.mpr ((sortUp_perm lt l').mem_iff.mp ha)
  refine List.Perm.eq_of_pairwise ?_ (sortUp_pairwise h l) (sortUp_pairwise h l') ?_
  · exact fun a b ha hb hab hba => hapart a (hmem a ha) b (hmem' b hb) hba hab
  · exact ((sortUp_perm lt l).trans hperm).trans (sortUp_perm lt l').symm

/-- The first elements of a sorted list are those with few elements below them. -/
theorem mem_take_of_pairwise (h : Compares lt) {a : α} :
    ∀ {l : List α} (k : ℕ), l.Pairwise (fun a b => lt b a = false) → l.Nodup →
      (∀ a ∈ l, ∀ b ∈ l, lt a b = false → lt b a = false → a = b) →
      (a ∈ l.take k ↔ a ∈ l ∧ l.countP (fun b => lt b a) < k)
  | [], k, _, _, _ => by simp
  | x :: l, 0, _, _, _ => by simp
  | x :: l, k + 1, hsorted, hnodup, hapart => by
    rw [List.pairwise_cons] at hsorted
    rw [List.nodup_cons] at hnodup
    have ih := mem_take_of_pairwise h (a := a) k hsorted.2 hnodup.2 fun b hb c hc =>
      hapart b (List.mem_cons_of_mem x hb) c (List.mem_cons_of_mem x hc)
    rw [List.take_succ_cons, List.mem_cons, List.mem_cons, ih, List.countP_cons]
    rcases eq_or_ne a x with rfl | hne
    · -- nothing is below the first element
      have hnone : l.countP (fun b => lt b a) = 0 := by
        rw [List.countP_eq_zero]
        exact fun b hb => by simp [hsorted.1 b hb]
      simp [hnone, h.irrefl]
    · have hbelow : a ∈ l → lt x a = true := by
        intro ha
        by_contra hx
        exact hne (hapart a (List.mem_cons_of_mem x ha) x List.mem_cons_self (hsorted.1 a ha)
          (Bool.eq_false_iff.mpr hx))
      constructor
      · rintro (heq | ⟨ha, hlt⟩)
        · exact absurd heq hne
        · exact ⟨.inr ha, by simp [hbelow ha, hlt]⟩
      · rintro ⟨heq | ha, hlt⟩
        · exact absurd heq hne
        · rw [hbelow ha, if_pos rfl] at hlt
          exact .inr ⟨ha, by omega⟩

theorem mem_take_sortUp (h : Compares lt) {a : α} (k : ℕ) (hnodup : l.Nodup)
    (hapart : ∀ a ∈ l, ∀ b ∈ l, lt a b = false → lt b a = false → a = b) :
    a ∈ (sortUp lt l).take k ↔ a ∈ l ∧ l.countP (fun b => lt b a) < k := by
  have hperm := sortUp_perm lt l
  rw [mem_take_of_pairwise h k (sortUp_pairwise h l) (hperm.nodup_iff.mpr hnodup), hperm.mem_iff,
    hperm.countP_eq]
  exact fun b hb c hc => hapart b (hperm.mem_iff.mp hb) c (hperm.mem_iff.mp hc)

end Sorting

/-! ### Places -/

section Places

variable {p : α → Bool} {l : List α} {r n : ℤ} {a : α}

theorem rankFrom_of_forall_false : ∀ {l : List α} {n : ℤ}, (∀ a ∈ l, p a = false) →
    rankFrom p n l = -1
  | [], _, _ => rfl
  | a :: l, n, h => by
    rw [rankFrom, h a List.mem_cons_self, if_neg Bool.false_ne_true]
    exact rankFrom_of_forall_false fun b hb => h b (List.mem_cons_of_mem a hb)

theorem itemFrom_eq_none : ∀ {l : List α} {n : ℤ}, r ≤ n → itemFrom r n l = none
  | [], _, _ => rfl
  | a :: l, n, h => by
    rw [itemFrom, if_neg (by omega)]
    exact itemFrom_eq_none (by omega)

theorem mem_of_itemFrom : ∀ {l : List α} {n : ℤ}, itemFrom r n l = some a → a ∈ l
  | b :: l, n, h => by
    rw [itemFrom] at h
    split_ifs at h
    · exact List.mem_cons.mpr (.inl (Option.some.inj h).symm)
    · exact List.mem_cons_of_mem b (mem_of_itemFrom h)

/-- Ranks counted on from `n` are above `n`. -/
theorem lt_rankFrom : ∀ {l : List α} {n : ℤ}, (∃ a ∈ l, p a = true) → n < rankFrom p n l
  | [], _, ⟨a, ha, _⟩ => absurd ha List.not_mem_nil
  | b :: l, n, ⟨a, ha, hpa⟩ => by
    rw [rankFrom]
    split_ifs with hb
    · omega
    · rcases List.mem_cons.mp ha with rfl | ha
      · exact absurd hpa hb
      · have hlt := lt_rankFrom (n := n + 1) ⟨a, ha, hpa⟩
        omega

variable [DecidableEq κ] {key : α → κ}

theorem itemFrom_iff_rank : ∀ {l : List α} {n : ℤ}, (l.map key).Nodup → a ∈ l →
    (itemFrom r n l = some a ↔ rankFrom (fun b => key b = key a) n l = r)
  | b :: l, n, hnodup, ha => by
    rw [List.map_cons, List.nodup_cons] at hnodup
    rw [itemFrom, rankFrom]
    by_cases hb : key b = key a
    · -- the element is the first one
      have hba : a = b := by
        rcases List.mem_cons.mp ha with rfl | ha
        · rfl
        · exact absurd (hb ▸ List.mem_map_of_mem ha) hnodup.1
      subst hba
      rw [if_pos (decide_eq_true rfl)]
      refine ⟨fun h => ?_, fun h => if_pos h⟩
      by_contra hne
      rw [if_neg hne] at h
      exact hnodup.1 (List.mem_map_of_mem (mem_of_itemFrom h))
    · have ha' : a ∈ l := (List.mem_cons.mp ha).resolve_left fun h => hb (h ▸ rfl)
      have hcond : ¬ decide (key b = key a) = true := by simpa using hb
      have hrest := itemFrom_iff_rank (n := n + 1) hnodup.2 ha'
      rw [if_neg hcond, ← hrest]
      by_cases hr : n + 1 = r
      · have hbefore : itemFrom r (n + 1) l = none := itemFrom_eq_none hr.ge
        rw [if_pos hr, hbefore]
        refine ⟨fun h => ?_, fun h => absurd h (by simp)⟩
        exact absurd (congrArg key (Option.some.inj h)) hb
      · rw [if_neg hr]

/-- The ranks of the elements, in their order, are the numbers from `n + 1` on. -/
theorem map_rankFrom : ∀ {l : List α} {n : ℤ}, (l.map key).Nodup →
    l.map (fun a => rankFrom (fun b => key b = key a) n l) =
      (List.range l.length).map fun i : ℕ => n + i + 1
  | [], _, _ => rfl
  | b :: l, n, hnodup => by
    rw [List.map_cons, List.nodup_cons] at hnodup
    rw [List.map_cons, List.length_cons, List.range_succ_eq_map, List.map_cons, List.map_map]
    have hfirst : rankFrom (fun c => key c = key b) n (b :: l) = n + 1 := by
      rw [rankFrom, if_pos (decide_eq_true rfl)]
    have hothers : l.map (fun a => rankFrom (fun c => key c = key a) n (b :: l)) =
        l.map fun a => rankFrom (fun c => key c = key a) (n + 1) l := by
      refine List.map_congr_left fun a ha => ?_
      have hne : ¬ decide (key b = key a) = true := by
        rw [decide_eq_true_eq]
        exact fun heq => hnodup.1 (heq ▸ List.mem_map_of_mem ha)
      rw [rankFrom, if_neg hne]
    rw [hfirst, hothers, map_rankFrom hnodup.2]
    refine congrArg₂ List.cons (by simp) (List.map_congr_left fun i _ => ?_)
    show n + 1 + (i : ℤ) + 1 = n + ((i + 1 : ℕ) : ℤ) + 1
    omega

end Places

end Ranking
