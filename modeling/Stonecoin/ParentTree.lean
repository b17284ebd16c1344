/-
Trees given by parent pointers and heights, over any type of nodes.

The line of a node is the node itself, its parent, and so on down to a root.  Everything
is said through membership in lines: `a ∈ line parent height b` reads "`a` is `b` or an
ancestor of `b`".

  * `Graded.upward`: induction from the roots upwards;
  * `mem_line_trans`, `mem_line_of_le`: lines are chains;
  * `getElem?_reverse_line`: a line stored from its root is indexed by height.
-/
import Mathlib.Data.List.Nodup
import Mathlib.Data.Nat.Basic
import Mathlib.Order.Basic

namespace ParentTree

variable {α : Type*}

/-- Roots have height 0, every other node is one higher than its parent. -/
structure Graded (parent : α → Option α) (height : α → ℕ) : Prop where
  root : ∀ b, parent b = none → height b = 0
  child : ∀ b p, parent b = some p → height b = height p + 1

/-- The first `n + 1` nodes on the way down from a node. -/
def lineFrom (parent : α → Option α) : ℕ → α → List α
  | 0, b => [b]
  | n + 1, b =>
    match parent b with
    | none => [b]
    | some p => b :: lineFrom parent n p

/-- The node and its ancestors, the node first. -/
def line (parent : α → Option α) (height : α → ℕ) (b : α) : List α :=
  lineFrom parent (height b) b

section

variable {parent : α → Option α} {height : α → ℕ}

variable {b : α}

theorem line_root (hg : Graded parent height) (hb : parent b = none) :
    line parent height b = [b] := by
  rw [line, hg.root b hb]
  rfl

theorem line_child (hg : Graded parent height) {p : α} (hb : parent b = some p) :
    line parent height b = b :: line parent height p := by
  rw [line, hg.child b p hb]
  simp only [lineFrom, hb]
  rfl

theorem Graded.upward (hg : Graded parent height) {P : α → Prop}
    (step : ∀ b, (∀ p, parent b = some p → P p) → P b) : ∀ b, P b := by
  have h : ∀ n b, height b = n → P b := by
    intro n
    induction n with
    | zero =>
      intro b hb
      apply step
      intro p hp
      rw [hg.child b p hp] at hb
      omega
    | succ n ih =>
      intro b hb
      apply step
      intro p hp
      apply ih
      have := hg.child b p hp
      omega
  exact fun b => h _ b rfl

variable {a : α}

theorem mem_line_iff (hg : Graded parent height) :
    a ∈ line parent height b ↔ a = b ∨ ∃ p, parent b = some p ∧ a ∈ line parent height p := by
  rcases hb : parent b with - | p
  · simp [line_root hg hb]
  · simp [line_child hg hb]

theorem head?_line (hg : Graded parent height) (b : α) :
    (line parent height b).head? = some b := by
  rcases hb : parent b with - | p
  · rw [line_root hg hb]
    rfl
  · rw [line_child hg hb]
    rfl

theorem mem_line_self (hg : Graded parent height) (b : α) : b ∈ line parent height b :=
  (mem_line_iff hg).mpr (.inl rfl)

theorem mem_line_parent (hg : Graded parent height) {p : α} (hb : parent b = some p)
    (ha : a ∈ line parent height p) : a ∈ line parent height b :=
  (mem_line_iff hg).mpr (.inr ⟨p, hb, ha⟩)

theorem parent_mem_line (hg : Graded parent height) {p : α} (hb : parent b = some p) :
    p ∈ line parent height b :=
  mem_line_parent hg hb (mem_line_self hg p)

/-- An ancestor of an ancestor is an ancestor. -/
theorem mem_line_trans (hg : Graded parent height) {c : α}
    (hab : a ∈ line parent height b) (hbc : b ∈ line parent height c) :
    a ∈ line parent height c := by
  revert hbc
  apply hg.upward (P := fun c => b ∈ line parent height c → a ∈ line parent height c) _ c
  intro c ih hbc
  rcases (mem_line_iff hg).mp hbc with rfl | ⟨p, hp, hbp⟩
  · exact hab
  · exact mem_line_parent hg hp (ih p hp hbp)

/-- What no step from a parent to a child lowers does not fall along a line. -/
theorem le_of_mem_line (hg : Graded parent height) {β : Type*} [Preorder β] {f : α → β}
    (hf : ∀ b p, parent b = some p → f p ≤ f b) (h : a ∈ line parent height b) :
    f a ≤ f b := by
  revert h
  apply hg.upward (P := fun b => a ∈ line parent height b → f a ≤ f b) _ b
  intro b ih h
  rcases (mem_line_iff hg).mp h with rfl | ⟨p, hp, hap⟩
  · exact le_rfl
  · exact (ih p hp hap).trans (hf b p hp)

theorem height_le_of_mem (hg : Graded parent height)
    (h : a ∈ line parent height b) : height a ≤ height b := by
  apply le_of_mem_line hg (f := height) _ h
  intro b p hp
  have hb := hg.child b p hp
  omega

/-- Only the node itself has its height on its line. -/
theorem eq_of_mem_of_height (hg : Graded parent height)
    (h : a ∈ line parent height b) (hh : height a = height b) : a = b := by
  rcases (mem_line_iff hg).mp h with rfl | ⟨p, hp, hap⟩
  · rfl
  · have h₁ := height_le_of_mem hg hap
    have h₂ := hg.child b p hp
    omega

/-- **Lines are chains**: of two nodes on one line, the lower is on the line of the
higher. -/
theorem mem_line_of_le (hg : Graded parent height) {c : α}
    (ha : a ∈ line parent height c) (hb : b ∈ line parent height c) (h : height a ≤ height b) :
    a ∈ line parent height b := by
  revert ha hb
  apply hg.upward (P := fun c => a ∈ line parent height c → b ∈ line parent height c →
    a ∈ line parent height b) _ c
  intro c ih ha hb
  rcases (mem_line_iff hg).mp hb with rfl | ⟨p, hp, hbp⟩
  · exact ha
  · rcases (mem_line_iff hg).mp ha with rfl | ⟨p', hp', hap⟩
    · -- the higher node is below the lower one only if they are the same
      have h₁ := height_le_of_mem hg hbp
      have h₂ := hg.child a p hp
      omega
    · rw [hp] at hp'
      obtain rfl := Option.some.inj hp'
      exact ih p hp hap hbp

theorem eq_of_mem_line (hg : Graded parent height) {c : α}
    (ha : a ∈ line parent height c) (hb : b ∈ line parent height c)
    (h : height a = height b) : a = b :=
  eq_of_mem_of_height hg (mem_line_of_le hg ha hb (Nat.le_of_eq h)) h

/-- Every height up to that of the node occurs. -/
theorem exists_mem_line (hg : Graded parent height) {n : ℕ} (h : n ≤ height b) :
    ∃ a ∈ line parent height b, height a = n := by
  revert h
  apply hg.upward (P := fun b => n ≤ height b → ∃ a ∈ line parent height b, height a = n) _ b
  intro b ih h
  rcases Nat.eq_or_lt_of_le h with rfl | hlt
  · exact ⟨b, mem_line_self hg b, rfl⟩
  · rcases hb : parent b with - | p
    · rw [hg.root b hb] at hlt
      omega
    · have h₁ := hg.child b p hb
      obtain ⟨a, ha, hh⟩ := ih p hb (by omega)
      exact ⟨a, mem_line_parent hg hb ha, hh⟩

theorem length_line (hg : Graded parent height) (b : α) :
    (line parent height b).length = height b + 1 := by
  apply hg.upward (P := fun b => (line parent height b).length = height b + 1) _ b
  intro b ih
  rcases hb : parent b with - | p
  · rw [line_root hg hb, hg.root b hb]
    rfl
  · rw [line_child hg hb, List.length_cons, ih p hb, hg.child b p hb]

theorem getElem?_reverse_line (hg : Graded parent height) {n : ℕ} :
    (line parent height b).reverse[n]? = some a ↔ a ∈ line parent height b ∧ height a = n := by
  apply hg.upward (P := fun b => (line parent height b).reverse[n]? = some a ↔
    a ∈ line parent height b ∧ height a = n) _ b
  intro b ih
  rcases hb : parent b with - | p
  · rw [line_root hg hb]
    have h0 := hg.root b hb
    cases n with
    | zero =>
      constructor
      · rintro h
        obtain rfl : b = a := by simpa using h
        exact ⟨by simp, h0⟩
      · rintro ⟨h, -⟩
        obtain rfl : a = b := by simpa using h
        rfl
    | succ n =>
      constructor
      · intro h
        simp at h
      · rintro ⟨h, hh⟩
        obtain rfl : a = b := by simpa using h
        omega
  · have hlen : (line parent height p).reverse.length = height b := by
      rw [List.length_reverse, length_line hg, hg.child b p hb]
    rw [line_child hg hb, List.reverse_cons]
    rcases Nat.lt_trichotomy n (height b) with hn | rfl | hn
    · rw [List.getElem?_append_left (by omega), ih p hb]
      constructor
      · rintro ⟨h, hh⟩
        exact ⟨List.mem_cons_of_mem _ h, hh⟩
      · rintro ⟨h, hh⟩
        rcases List.mem_cons.mp h with rfl | h'
        · omega
        · exact ⟨h', hh⟩
    · rw [List.getElem?_append_right (by omega), hlen, Nat.sub_self]
      constructor
      · intro h
        obtain rfl : b = a := by simpa using h
        exact ⟨by simp, rfl⟩
      · rintro ⟨h, hh⟩
        rcases List.mem_cons.mp h with rfl | h'
        · rfl
        · have h₁ := height_le_of_mem hg h'
          have h₂ := hg.child b p hb
          omega
    · rw [List.getElem?_eq_none (by rw [List.length_append, hlen, List.length_singleton]; omega)]
      constructor
      · intro h
        cases h
      · rintro ⟨h, hh⟩
        rcases List.mem_cons.mp h with rfl | h'
        · omega
        · have h₁ := height_le_of_mem hg h'
          have h₂ := hg.child b p hb
          omega

/-- The first node of a line with a property has all others with it on its line. -/
theorem find?_line (hg : Graded parent height) (P : α → Bool)
    (h : ∃ a ∈ line parent height b, P a = true) :
    ∃ f ∈ line parent height b, (line parent height b).find? P = some f ∧ P f = true ∧
      ∀ a ∈ line parent height b, P a = true → a ∈ line parent height f := by
  revert h
  apply hg.upward (P := fun b => (∃ a ∈ line parent height b, P a = true) →
    ∃ f ∈ line parent height b, (line parent height b).find? P = some f ∧ P f = true ∧
      ∀ a ∈ line parent height b, P a = true → a ∈ line parent height f) _ b
  rintro b ih ⟨a, ha, hPa⟩
  rcases hPb : P b with - | -
  · -- the node itself does not have it, so the rest of the line decides
    rcases (mem_line_iff hg).mp ha with rfl | ⟨p, hp, hap⟩
    · rw [hPa] at hPb
      cases hPb
    · obtain ⟨f, hf, hfind, hPf, hall⟩ := ih p hp ⟨a, hap, hPa⟩
      refine ⟨f, mem_line_parent hg hp hf, ?_, hPf, fun c hc hPc => ?_⟩
      · rw [line_child hg hp, List.find?_cons, hPb]
        exact hfind
      · rcases (mem_line_iff hg).mp hc with rfl | ⟨p', hp', hcp⟩
        · rw [hPc] at hPb
          cases hPb
        · rw [hp] at hp'
          obtain rfl := Option.some.inj hp'
          exact hall c hcp hPc
  · refine ⟨b, mem_line_self hg b, ?_, hPb, fun c hc _ => hc⟩
    rcases hp : parent b with - | p
    · rw [line_root hg hp, List.find?_cons, hPb]
    · rw [line_child hg hp, List.find?_cons, hPb]

/-- Cutting a line at a node: the rest is the line of that node, and what was passed has
that node on its line. -/
theorem line_split (hg : Graded parent height) {x : α} {pre post : List α}
    (h : line parent height b = pre ++ x :: post) :
    line parent height x = x :: post ∧ ∀ c ∈ pre, x ∈ line parent height c := by
  revert h
  apply hg.upward (P := fun b => ∀ pre : List α, line parent height b = pre ++ x :: post →
    line parent height x = x :: post ∧ ∀ c ∈ pre, x ∈ line parent height c) _ b pre
  intro b ih pre h
  have hx : x ∈ line parent height b := by
    rw [h]
    exact List.mem_append_right _ List.mem_cons_self
  rcases pre with - | ⟨c, pre⟩
  · -- the cut is at the node itself
    have hxb : x = b := by
      have hhead := head?_line hg b
      rw [h] at hhead
      exact Option.some.inj hhead
    rw [hxb]
    refine ⟨?_, by simp⟩
    rw [h, hxb]
    rfl
  · rcases hb : parent b with - | p
    · rw [line_root hg hb] at h
      have hlen := congrArg List.length h
      simp only [List.length_nil, List.length_cons, List.length_append] at hlen
      omega
    · have hline := line_child hg hb
      rw [hline] at h
      obtain ⟨rfl, h'⟩ := List.cons.inj h
      obtain ⟨h₁, h₂⟩ := ih p hb pre h'
      refine ⟨h₁, fun d hd => ?_⟩
      rcases List.mem_cons.mp hd with rfl | hd'
      · exact hx
      · exact h₂ d hd'

/-- A line only depends on the parents and heights of its own nodes. -/
theorem line_congr {parent' : α → Option α} {height' : α → ℕ} (hg : Graded parent height)
    (hg' : Graded parent' height')
    (h : ∀ a ∈ line parent height b, parent' a = parent a) :
    line parent' height' b = line parent height b := by
  revert h
  apply hg.upward (P := fun b => (∀ a ∈ line parent height b, parent' a = parent a) →
    line parent' height' b = line parent height b) _ b
  intro b ih h
  have hb := h b (mem_line_self hg b)
  rcases hp : parent b with - | p
  · rw [line_root hg hp, line_root hg' (hb.trans hp)]
  · rw [line_child hg hp, line_child hg' (hb.trans hp),
      ih p hp fun a ha => h a (mem_line_parent hg hp ha)]

/-! ### Paths upwards -/

/-- Each node of the list is a child of the one before it, the first a child of `a`. -/
def IsPath (parent : α → Option α) : α → List α → Prop
  | _, [] => True
  | a, b :: bs => parent b = some a ∧ IsPath parent b bs

/-- Where a path leads. -/
def pathEnd : α → List α → α
  | a, [] => a
  | _, b :: bs => pathEnd b bs

theorem IsPath.append {l : List α} (h : IsPath parent a l)
    (hb : parent b = some (pathEnd a l)) : IsPath parent a (l ++ [b]) := by
  induction l generalizing a with
  | nil => exact ⟨hb, trivial⟩
  | cons c l ih => exact ⟨h.1, ih h.2 hb⟩

theorem pathEnd_append (a b : α) (l : List α) : pathEnd a (l ++ [b]) = b := by
  induction l generalizing a with
  | nil => rfl
  | cons c l ih => exact ih c

/-- A path stays on the line of its end. -/
theorem IsPath.mem_line (hg : Graded parent height) {l : List α}
    (h : IsPath parent a l) : a ∈ line parent height (pathEnd a l) := by
  induction l generalizing a with
  | nil => exact mem_line_self hg a
  | cons b l ih => exact mem_line_trans hg (parent_mem_line hg h.1) (ih h.2)

theorem path_segment (hg : Graded parent height) (h : a ∈ line parent height b) :
    IsPath parent a
        ((line parent height b).takeWhile fun c => height c + 1 ≠ height a + 1).reverse ∧
      pathEnd a ((line parent height b).takeWhile fun c => height c + 1 ≠ height a + 1).reverse
        = b := by
  revert h
  apply hg.upward (P := fun b => a ∈ line parent height b → IsPath parent a
        ((line parent height b).takeWhile fun c => height c + 1 ≠ height a + 1).reverse ∧
      pathEnd a ((line parent height b).takeWhile fun c => height c + 1 ≠ height a + 1).reverse
        = b) _ b
  intro b ih h
  rcases (mem_line_iff hg).mp h with rfl | ⟨p, hp, hap⟩
  · -- nothing is above
    have hnil : (line parent height a).takeWhile (fun c => height c + 1 ≠ height a + 1) = [] := by
      rcases hb : parent a with - | p
      · rw [line_root hg hb]
        simp
      · rw [line_child hg hb]
        simp
    rw [hnil]
    exact ⟨trivial, rfl⟩
  · obtain ⟨h₁, h₂⟩ := ih p hp hap
    have hne : height b + 1 ≠ height a + 1 := by
      have hle := height_le_of_mem hg hap
      have hc := hg.child b p hp
      omega
    rw [line_child hg hp, List.takeWhile_cons_of_pos (by simpa using hne), List.reverse_cons]
    exact ⟨h₁.append (hp.trans (congrArg some h₂.symm)), pathEnd_append a b _⟩

end

end ParentTree
