/-
Registers whose writes carry a stamp, for any linearly ordered stamps and any values.

A write with a smaller stamp is refused.  On equal stamps the later arrival may win
(`keepLast`) or the earlier one (`keepFirst`).  Either way the register ends with a write of
the largest stamp (`keepLast_foldl_spec`, `keepFirst_foldl_none`), so the order of arrival
does not matter when all writes of the largest stamp have one value (`keepLast_foldl_eq`,
`keepFirst_foldl_eq`).  When they do not, the one that comes last, or first, stays.
-/
import Mathlib.Data.List.Perm.Basic
import Mathlib.Order.Lattice

namespace LastWriter

variable {τ β : Type*} [LinearOrder τ]

/-- A write wins unless its stamp is smaller. -/
def keepLast (r w : τ × β) : τ × β := if w.1 < r.1 then r else w

/-- A write wins if its stamp is larger, or if it is the first. -/
def keepFirst : Option (τ × β) → τ × β → Option (τ × β)
  | none, w => some w
  | some r, w => if r.1 < w.1 then some w else some r

/-- A write has the largest stamp of some. -/
def Latest (v : τ × β) (ws : List (τ × β)) : Prop := v ∈ ws ∧ ∀ u ∈ ws, u.1 ≤ v.1

/-! ### The later arrival wins -/

/-- **What the register ends with**: a write of the largest stamp, or what it had, if all
stamps are smaller. -/
theorem keepLast_foldl_spec : ∀ (ws : List (τ × β)) (r : τ × β),
    (ws.foldl keepLast r = r ∧ ∀ w ∈ ws, w.1 < r.1) ∨
      (Latest (ws.foldl keepLast r) ws ∧ r.1 ≤ (ws.foldl keepLast r).1)
  | [], r => .inl ⟨rfl, fun w hw => absurd hw List.not_mem_nil⟩
  | w :: ws, r => by
    rw [List.foldl_cons]
    rcases lt_or_ge w.1 r.1 with hlt | hge
    · have hstep : keepLast r w = r := if_pos hlt
      rw [hstep]
      rcases keepLast_foldl_spec ws r with ⟨he, hall⟩ | ⟨⟨hmem, hall⟩, hr⟩
      · refine .inl ⟨he, fun u hu => ?_⟩
        rcases List.mem_cons.mp hu with rfl | hu
        · exact hlt
        · exact hall u hu
      · refine .inr ⟨⟨List.mem_cons_of_mem _ hmem, fun u hu => ?_⟩, hr⟩
        rcases List.mem_cons.mp hu with rfl | hu
        · exact hlt.le.trans hr
        · exact hall u hu
    · have hstep : keepLast r w = w := if_neg (not_lt.mpr hge)
      rw [hstep]
      right
      rcases keepLast_foldl_spec ws w with ⟨he, hall⟩ | ⟨⟨hmem, hall⟩, hw⟩
      · rw [he]
        refine ⟨⟨by simp, fun u hu => ?_⟩, hge⟩
        rcases List.mem_cons.mp hu with rfl | hu
        · exact le_refl _
        · exact (hall u hu).le
      · refine ⟨⟨List.mem_cons_of_mem _ hmem, fun u hu => ?_⟩, hge.trans hw⟩
        rcases List.mem_cons.mp hu with rfl | hu
        · exact hw
        · exact hall u hu

/-- A write of the largest stamp that comes last stays. -/
theorem keepLast_foldl_concat {ws : List (τ × β)} {r v : τ × β} (hr : r.1 ≤ v.1)
    (hall : ∀ u ∈ ws, u.1 ≤ v.1) : (ws ++ [v]).foldl keepLast r = v := by
  rw [List.foldl_append]
  show keepLast (ws.foldl keepLast r) v = v
  apply if_neg
  rw [not_lt]
  rcases keepLast_foldl_spec ws r with ⟨he, -⟩ | ⟨⟨hmem, -⟩, -⟩
  · rw [he]; exact hr
  · exact hall _ hmem

/-- The same writes in any order and number, when all of the largest stamp have one value or
none of them reaches what the register has. -/
theorem keepLast_foldl_eq {us vs : List (τ × β)} {r : τ × β} (hmem : ∀ x, x ∈ us ↔ x ∈ vs)
    (hs : ∀ v w, Latest v us → Latest w us → r.1 ≤ v.1 → v.2 = w.2) : (us.foldl keepLast r).2 = (vs.foldl keepLast r).2 := by
  rcases keepLast_foldl_spec us r with ⟨hu, hall⟩ | ⟨⟨hu, hall⟩, hr⟩
  · rcases keepLast_foldl_spec vs r with ⟨hv, -⟩ | ⟨⟨hv, -⟩, hr⟩
    · rw [hu, hv]
    · exact absurd (hall _ ((hmem _).mpr hv)) (not_lt.mpr hr)
  · rcases keepLast_foldl_spec vs r with ⟨-, hall'⟩ | ⟨⟨hv, hall'⟩, -⟩
    · exact absurd (hall' _ ((hmem _).mp hu)) (not_lt.mpr hr)
    · exact hs _ _ ⟨hu, hall⟩ ⟨(hmem _).mpr hv, fun x hx => hall' x ((hmem x).mp hx)⟩ hr

/-! ### The earlier arrival wins -/

theorem keepFirst_foldl_some : ∀ (ws : List (τ × β)) (r : τ × β),
    ∃ v, ws.foldl keepFirst (some r) = some v ∧ Latest v (r :: ws)
  | [], r => ⟨r, rfl, by simp [Latest]⟩
  | w :: ws, r => by
    rw [List.foldl_cons]
    rcases lt_or_ge r.1 w.1 with hlt | hge
    · have hstep : keepFirst (some r) w = some w := if_pos hlt
      rw [hstep]
      obtain ⟨v, he, hmem, hall⟩ := keepFirst_foldl_some ws w
      refine ⟨v, he, List.mem_cons_of_mem _ hmem, fun u hu => ?_⟩
      rcases List.mem_cons.mp hu with rfl | hu
      · exact hlt.le.trans (hall w (by simp))
      · exact hall u hu
    · have hstep : keepFirst (some r) w = some r := if_neg (not_lt.mpr hge)
      rw [hstep]
      obtain ⟨v, he, hmem, hall⟩ := keepFirst_foldl_some ws r
      have hr := hall r (by simp)
      refine ⟨v, he, ?_, fun u hu => ?_⟩
      · rcases List.mem_cons.mp hmem with rfl | hmem
        · simp
        · simp [hmem]
      · rcases List.mem_cons.mp hu with rfl | hu
        · exact hr
        · rcases List.mem_cons.mp hu with rfl | hu
          · exact hge.trans hr
          · exact hall u (List.mem_cons_of_mem _ hu)

theorem keepFirst_foldl_none (ws : List (τ × β)) :
    (ws = [] ∧ ws.foldl keepFirst none = none) ∨
      ∃ v, ws.foldl keepFirst none = some v ∧ Latest v ws := by
  cases ws with
  | nil => exact .inl ⟨rfl, rfl⟩
  | cons w ws => exact .inr (keepFirst_foldl_some ws w)

/-- A write of the largest stamp that comes first stays. -/
theorem keepFirst_foldl_first : ∀ {ws : List (τ × β)} {v : τ × β}, (∀ u ∈ ws, u.1 ≤ v.1) →
    ws.foldl keepFirst (some v) = some v
  | [], _, _ => rfl
  | w :: ws, v, hall => by
    have hstep : keepFirst (some v) w = some v := if_neg (not_lt.mpr (hall w (by simp)))
    rw [List.foldl_cons, hstep]
    exact keepFirst_foldl_first fun u hu => hall u (List.mem_cons_of_mem _ hu)

/-- The same writes in any order and number, when all of the largest stamp have one value. -/
theorem keepFirst_foldl_eq {us vs : List (τ × β)} (hmem : ∀ x, x ∈ us ↔ x ∈ vs)
    (hs : ∀ v w, Latest v us → Latest w us → v.2 = w.2) :
    (us.foldl keepFirst none).map Prod.snd = (vs.foldl keepFirst none).map Prod.snd := by
  rcases keepFirst_foldl_none us with ⟨rfl, hu⟩ | ⟨v, hu, hv⟩
  · rcases keepFirst_foldl_none vs with ⟨rfl, -⟩ | ⟨w, -, hw⟩
    · rfl
    · exact absurd ((hmem w).mpr hw.1) List.not_mem_nil
  · rcases keepFirst_foldl_none vs with ⟨rfl, -⟩ | ⟨w, hw', hw⟩
    · exact absurd ((hmem v).mp hv.1) List.not_mem_nil
    · have hw'' : Latest w us :=
        ⟨(hmem w).mpr hw.1, fun u hu => hw.2 u ((hmem u).mp hu)⟩
      rw [hu, hw']
      exact congrArg some (hs v w hv hw'')

end LastWriter
