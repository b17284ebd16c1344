/-
The passes of `ActivateBestChain`, and its end.

A pass makes the best candidate the tip, or gains work, or stops before a block that does
not connect.  If such a block is always marked as invalid the loop comes to an end, and it
ends with the best candidate as the tip.
-/
import Stonecoin.ActivateStep
import Stonecoin.Runs

namespace Stonecoin

namespace ChainState

open ParentTree Runs

variable {verdict : BlockPtr → ConnectVerdict} {Wanted : BlockPtr → Prop}
  {s s' s'' : ChainState} {t t' m b floor floor' : BlockPtr}

/-! ### One pass -/

def BestUsable (s : ChainState) (m : BlockPtr) : Prop :=
  m ∈ s.setBlockIndexCandidates ∧ s.Usable m ∧
    ∀ c ∈ s.setBlockIndexCandidates, s.Usable c → ¬ s.less m c = true

/-- After a pass that moved the tip from `t` to `t'`. -/
structure Passed (verdict : BlockPtr → ConnectVerdict) (Wanted : BlockPtr → Prop)
    (s s' : ChainState) (t t' floor' : BlockPtr) : Prop where
  evolves : Evolves verdict s s'
  selecting : Selecting verdict Wanted s' t' floor'
  removed : ∀ c ∈ s.setBlockIndexCandidates, c ∈ s'.setBlockIndexCandidates ∨
    s'.failed c = true ∨ ∃ a ∈ s.line t', s.less c a = true
  pruned : t' ∈ s.line t ∨ ∀ c ∈ s'.setBlockIndexCandidates, ¬ s.less c t' = true

def PassEnd (verdict : BlockPtr → ConnectVerdict) (s s' : ChainState) (t t' : BlockPtr) :
    Progress → Prop
  | .done => ∀ c ∈ s'.setBlockIndexCandidates, ¬ s'.less t' c = true
  | .again => s'.tree.nChainWork t < s'.tree.nChainWork t' ∨
      ∃ m, s.BestUsable m ∧ Stuck verdict s' m t'
  | .failed => ∃ m, s.BestUsable m ∧
      ∃ c ∈ s'.line m, s'.tree.pprev c = some t' ∧ verdict c = .error

theorem bestUsable_of_goal (hev : ∀ v, Evolves v s s')
    (hrem : ∀ c ∈ s.setBlockIndexCandidates, c ∈ s'.setBlockIndexCandidates ∨ s'.failed c = true)
    (hg : s'.Goal m) : s.BestUsable m := by
  refine ⟨(hev fun _ => .valid).candidates m hg.mem, (hev fun _ => .valid).usable_of hg.usable,
    fun c hc hu => ?_⟩
  -- a usable block is connectable when every block connects
  have hu' := ((hev fun _ => .valid).connectable ⟨hu, fun _ _ => rfl⟩).1
  rcases hrem c hc with hc' | hf
  · rw [← (hev fun _ => .valid).less_eq]
    exact hg.best c hc'
  · have hgood := (hu' c (s'.tree.mem_line_self c)).1
    rw [hf] at hgood
    cases hgood

theorem activatePass_spec (h : Selecting verdict Wanted s t floor) :
    ∃ p s' t' floor', s.activatePass verdict = (p, s') ∧
      Passed verdict Wanted s s' t t' floor' ∧ PassEnd verdict s s' t t' p := by
  obtain ⟨m, s₁, hfind, hevs, hsel, hrem, hmem, hbest, hu⟩ :=
    findMostWorkChainLoop_spec _ s h (Nat.lt_succ_self _)
  have hev := hevs verdict
  have hg : s₁.Goal m := ⟨hmem, hbest, hu⟩
  have hbu := bestUsable_of_goal hevs hrem hg
  unfold activatePass findMostWorkChain
  rw [hfind]
  dsimp only
  rw [hsel.active.tip_eq]
  by_cases htm : t = m
  · subst htm
    rw [if_pos rfl]
    refine ⟨.done, s₁, t, floor, rfl, ⟨hev, hsel, fun c hc => ?_, ?_⟩, hbest⟩
    · exact (hrem c hc).imp_right .inl
    · exact .inl (s.tree.mem_line_self t)
  · rw [if_neg fun he => htm (Option.some.inj he)]
    obtain ⟨f, e, s', t', floor', hft, hfm, hr, hc, he⟩ := activateBestChainStep_spec hsel hg
    have hcev : Evolves verdict s₁ s' := (withTip_evolves s₁ f).trans hc.evolves
    have hpassed : Passed verdict Wanted s s' t t' floor' := by
      refine ⟨hev.trans hcev, hc.selecting, fun c hcs => ?_, ?_⟩
      · rcases hrem c hcs with hc₁ | hf
        · rcases hc.removed c hc₁ with hc' | hf | ⟨a, ha, hl⟩
          · exact .inl hc'
          · exact .inr (.inl hf)
          · refine .inr (.inr ⟨a, ?_, ?_⟩)
            · rw [← hev.line_eq]
              exact ha
            · rw [← hev.less_eq]
              exact hl
        · exact .inr (.inl (hcev.failed_mono hf))
      · rcases hc.pruned with rfl | hp
        · left
          rw [← hev.line_eq]
          exact hft
        · right
          intro c hcs
          rw [← hev.less_eq]
          exact hp c hcs
    -- no candidate is better than the goal
    have hmax : ∀ c ∈ s'.setBlockIndexCandidates, ¬ s'.less m c = true := by
      intro c hcs
      rw [hcev.less_eq]
      exact hbest c (hcev.candidates c hcs)
    rw [hr]
    rcases e with - | - | -
    · obtain ⟨rfl, -⟩ := he
      refine ⟨.done, s', t', floor', ?_, hpassed, hmax⟩
      rw [show decide (StepExit.more ≠ StepExit.fail) = true from rfl]
      dsimp only
      rw [hc.selecting.active.tip_eq]
      simp
    · rw [show decide (StepExit.stop ≠ StepExit.fail) = true from rfl]
      by_cases ht' : t' = m
      · subst ht'
        refine ⟨.done, s', t', floor', ?_, hpassed, hmax⟩
        dsimp only
        rw [hc.selecting.active.tip_eq]
        simp
      · refine ⟨.again, s', t', floor', ?_, hpassed, he.imp_right fun hs => ⟨m, hbu, hs⟩⟩
        dsimp only
        rw [hc.selecting.active.tip_eq]
        simp [ht']
    · exact ⟨.failed, s', t', floor', rfl, hpassed, m, hbu, he⟩

/-! ### The whole loop -/

theorem countP_lt {α : Type*} {p q : α → Bool} : ∀ {l : List α},
    (∀ a ∈ l, q a = true → p a = true) → ∀ {x : α}, x ∈ l → p x = true → q x = false →
      l.countP q < l.countP p := by
  intro l
  induction l with
  | nil =>
    intro _ x hx
    cases hx
  | cons a l ih =>
    intro himp x hx hp hq
    have hle := List.countP_mono_left fun b hb => himp b (List.mem_cons_of_mem a hb)
    rcases List.mem_cons.mp hx with rfl | hx'
    · rw [List.countP_cons_of_pos hp, List.countP_cons_of_neg (by simp [hq])]
      omega
    · have hlt := ih (fun b hb => himp b (List.mem_cons_of_mem a hb)) hx' hp hq
      have ha := himp a List.mem_cons_self
      rw [List.countP_cons, List.countP_cons]
      split
      next hqa =>
        rw [if_pos (ha hqa)]
        omega
      next => omega

/-- The blocks that are not marked as invalid. -/
def unmarked (s : ChainState) : ℕ :=
  s.tree.mapBlockIndex.countP fun b => !(s.node b).nStatus.failedValid

def heavier (s : ChainState) (t : BlockPtr) : ℕ :=
  s.tree.mapBlockIndex.countP fun b => s.tree.nChainWork t < s.tree.nChainWork b

/-- What a pass after which the loop goes on makes smaller. -/
def measure (s : ChainState) (t : BlockPtr) : ℕ :=
  s.unmarked * (s.tree.mapBlockIndex.length + 1) + s.heavier t

/-- Every block either connects or violates a consensus rule. -/
def Decided (verdict : BlockPtr → ConnectVerdict) : Prop :=
  ∀ b, verdict b = .valid ∨ verdict b = .invalid false

theorem unmarked_le (h : Evolves verdict s s') : s'.unmarked ≤ s.unmarked := by
  unfold unmarked
  rw [h.tree]
  apply List.countP_mono_left
  intro b _ hb
  rcases hf : (s.node b).nStatus.failedValid with - | -
  · rfl
  · rw [(h.entry b).failedValid hf] at hb
    cases hb

theorem activatePass_measure (hd : Decided verdict) (hi : ∀ c ∈ s.setBlockIndexCandidates,
      c ∈ s.tree.mapBlockIndex) (h : Passed verdict Wanted s s' t t' floor')
    (he : PassEnd verdict s s' t t' .again) : s'.measure t' < s.measure t := by
  have hle := unmarked_le h.evolves
  have htree := h.evolves.tree
  rcases he with hw | ⟨m, ⟨hm, hu, -⟩, c, hc, -, corruptionPossible, hv, hmark⟩
  · -- more work
    rw [htree] at hw
    have hlt : s'.heavier t' < s.heavier t := by
      unfold heavier
      rw [htree]
      refine countP_lt (fun b _ hb => ?_) (htree ▸ h.selecting.tip_mem) (by simpa using hw)
        (by simp)
      rw [decide_eq_true_eq] at hb ⊢
      omega
    unfold measure
    rw [htree]
    have hmul := Nat.mul_le_mul_right (s.tree.mapBlockIndex.length + 1) hle
    omega
  · -- one more block that is marked
    rw [h.evolves.line_eq] at hc
    have hfalse : corruptionPossible = false := by
      rcases hd c with hd | hd
      · rw [hv] at hd
        cases hd
      · rw [hv] at hd
        exact ConnectVerdict.invalid.inj hd
    have hidx := BlockTree.mem_of_mem_line (hi m hm) hc
    have hgood : (s.node c).nStatus.failedValid = false := by
      rcases hf : (s.node c).nStatus.failedValid with - | -
      · rfl
      · have hc' := (hu c hc).1
        rw [failed_iff.mpr (.inl hf)] at hc'
        cases hc'
    have hlt : s'.unmarked < s.unmarked := by
      unfold unmarked
      rw [htree]
      refine countP_lt (fun b _ hb => ?_) hidx (by simp [hgood]) (by simp [hmark hfalse])
      rcases hf : (s.node b).nStatus.failedValid with - | -
      · rfl
      · rw [(h.evolves.entry b).failedValid hf] at hb
        cases hb
    have hh : s'.heavier t' ≤ s.tree.mapBlockIndex.length := by
      unfold heavier
      rw [htree]
      exact List.countP_le_length
    unfold measure
    rw [htree]
    have hmul := Nat.mul_le_mul_right (s.tree.mapBlockIndex.length + 1)
      (Nat.succ_le_of_lt hlt)
    rw [Nat.succ_mul] at hmul
    omega

theorem activateBestChain_selects (hd : Decided verdict) : ∀ (fuel : ℕ) (s : ChainState)
    (t floor : BlockPtr), Selecting verdict Wanted s t floor → s.measure t < fuel →
      ∃ s' t' floor', s.activateBestChain verdict fuel = some (true, s') ∧
        Evolves verdict s s' ∧ Selecting verdict Wanted s' t' floor' ∧
        ∀ c ∈ s'.setBlockIndexCandidates, ¬ s'.less t' c = true := by
  intro fuel
  induction fuel with
  | zero =>
    intro s t floor _ hf
    omega
  | succ fuel ih =>
    intro s t floor h hf
    obtain ⟨p, s₁, t₁, floor₁, hr, hpass, hend⟩ := activatePass_spec h
    simp only [activateBestChain]
    rw [hr]
    rcases p with - | - | -
    · exact ⟨s₁, t₁, floor₁, rfl, hpass.evolves, hpass.selecting, hend⟩
    · have hlt := activatePass_measure hd (fun c hc => (h.candidate c hc).1) hpass hend
      obtain ⟨s', t', floor', hr', hev, hsel, hmax⟩ := ih s₁ t₁ floor₁ hpass.selecting (by omega)
      exact ⟨s', t', floor', hr', hpass.evolves.trans hev, hsel, hmax⟩
    · obtain ⟨m, -, c, -, -, hv⟩ := hend
      rcases hd c with hd | hd
      · rw [hv] at hd
        cases hd
      · rw [hv] at hd
        cases hd

theorem activateBestChain_mono {r : Bool × ChainState} : ∀ {fuel fuel' : ℕ} {s : ChainState},
    s.activateBestChain verdict fuel = some r → fuel ≤ fuel' →
      s.activateBestChain verdict fuel' = some r := by
  intro fuel
  induction fuel with
  | zero =>
    intro fuel' s h
    cases h
  | succ fuel ih =>
    intro fuel' s h hle
    rcases fuel' with - | fuel'
    · omega
    simp only [activateBestChain] at h ⊢
    rcases hp : s.activatePass verdict with ⟨- | - | -, s₁⟩
    · rw [hp] at h
      exact h
    · rw [hp] at h
      exact ih h (by omega)
    · rw [hp] at h
      exact h

def Pass (verdict : BlockPtr → ConnectVerdict) (s : ChainState) (_ : Unit) (s' : ChainState) :
    Prop :=
  (s.activatePass verdict).2 = s'

theorem activateBestChain_run {r : Bool} : ∀ {fuel : ℕ} {s : ChainState},
    s.activateBestChain verdict fuel = some (r, s') → ∃ es, Run (Pass verdict) s es s' := by
  intro fuel
  induction fuel with
  | zero =>
    intro s h
    cases h
  | succ fuel ih =>
    intro s h
    simp only [activateBestChain] at h
    rcases hp : s.activatePass verdict with ⟨- | - | -, s₁⟩
    all_goals
      rw [hp] at h
      have hstep : Pass verdict s () s₁ := congrArg Prod.snd hp
    · obtain ⟨-, rfl⟩ := Prod.mk.inj (Option.some.inj h)
      exact ⟨[()], .cons hstep (.nil _)⟩
    · obtain ⟨es, hrun⟩ := ih h
      exact ⟨() :: es, .cons hstep hrun⟩
    · obtain ⟨-, rfl⟩ := Prod.mk.inj (Option.some.inj h)
      exact ⟨[()], .cons hstep (.nil _)⟩

theorem passes_selecting {es : List Unit} (hrun : Run (Pass verdict) s es s')
    (h : Selecting verdict Wanted s t floor) :
    Evolves verdict s s' ∧ ∃ t' floor', Selecting verdict Wanted s' t' floor' := by
  apply hrun.invariant (I := fun s' => Evolves verdict s s' ∧
    ∃ t' floor', Selecting verdict Wanted s' t' floor') _ ⟨.refl s, t, floor, h⟩
  rintro s₁ _ s₂ ⟨hev, t₁, floor₁, h₁⟩ hstep
  obtain ⟨p, s', t', floor', hr, hpass, -⟩ := activatePass_spec h₁
  obtain rfl : s' = s₂ := by
    rw [← show (s₁.activatePass verdict).2 = s₂ from hstep, hr]
  exact ⟨hev.trans hpass.evolves, t', floor', hpass.selecting⟩

/-- The number of passes that always suffices. -/
def passBound (s : ChainState) : ℕ := (s.tree.mapBlockIndex.length + 1) ^ 2

theorem measure_lt_passBound (s : ChainState) (t : BlockPtr) : s.measure t < s.passBound := by
  have h₁ : s.unmarked ≤ s.tree.mapBlockIndex.length := List.countP_le_length
  have h₂ : s.heavier t ≤ s.tree.mapBlockIndex.length := List.countP_le_length
  have hmul := Nat.mul_le_mul_right (s.tree.mapBlockIndex.length + 1) h₁
  unfold measure passBound
  rw [Nat.pow_two, Nat.succ_mul]
  omega

end ChainState

end Stonecoin
