/-
Rounds of the queue of script checks: the master adds batches of checks and waits.

`Inv` collects over all threads what a step of one thread leaves alone.  It holds as long as the
count of the checks to do, which has 32 bits, does not overflow.

  * `run_reports`: in every run whose rounds have fewer than `2 ^ 32` checks each, `Wait` returns,
        and it returns whether all checks of the round hold;
  * `early_return`: with `2 ^ 32` checks it can return before any of them is evaluated.
-/
import Stonecoin.CheckQueue
import Stonecoin.Runs
import Stonecoin.Schedules
import Mathlib.Tactic.Abel

namespace Stonecoin

namespace CheckQueue

variable {T : Type}

/-! ### The invariant -/

/-- The queue, the checks that all threads hold together, the threads that are counted and those
that wait, and the verdict of all threads. -/
structure Balanced (check : T → Bool) (q : CCheckQueue T) (held : ℕ) (inLoop idles : ℤ) (ok : Bool)
    (added : List T) : Prop where
  todo : q.nTodo = (q.queue.length + held) % 2 ^ 32
  few : q.queue.length + held ≤ added.length
  verdict : (q.fAllOk && (q.queue.all check && ok)) = added.all check
  total : q.nTotal = inLoop
  idle : q.nIdle = idles

variable {check : T → Bool} {t : Thread T}

theorem Balanced.move {fMaster : Bool} {q : CCheckQueue T} {held : ℕ} {inLoop idles : ℤ}
    {ok : Bool} {added : List T}
    (h : Balanced check q (t.held + held) (t.inLoop + inLoop) (t.idles + idles)
      (t.ok check && ok) added)
    (hwf : t.Wf) (hended : t.isEnded = false)
    (hstays : fMaster = true → (move check fMaster q t).ret = none) :
    Balanced check (move check fMaster q t).q ((move check fMaster q t).thread.held + held)
      ((move check fMaster q t).thread.inLoop + inLoop)
      ((move check fMaster q t).thread.idles + idles)
      ((move check fMaster q t).thread.ok check && ok) added := by
  have hkeeps := keeps_move check fMaster q hwf
  constructor
  · exact hkeeps.todo held h.todo
  · have hfew := hkeeps.few
    have hle := h.few
    omega
  · have hverdict := h.verdict
    rw [← Bool.and_assoc (q.queue.all check), ← Bool.and_assoc q.fAllOk,
      ← verdict_move check q hwf hended hstays] at hverdict
    rw [← hverdict, Bool.and_assoc, Bool.and_assoc]
  · have htotal := hkeeps.total
    have hsum := h.total
    omega
  · have hidle := hkeeps.idle
    have hsum := h.idle
    omega

namespace System

variable {M : Type} [AddCommMonoid M]

def sum (f : Thread T → M) (s : System T) : M := s.master.elim 0 f + (s.workers.map f).sum

/-- The verdict of all threads. -/
def allOk (check : T → Bool) (s : System T) : Bool :=
  s.master.elim true (Thread.ok check) && s.workers.all (Thread.ok check)

end System

theorem sum_workers {M : Type} [AddCommMonoid M] (f : Thread T → M) (m : M) (t : Thread T)
    (ws ws' : List (Thread T)) :
    m + ((ws ++ t :: ws').map f).sum = f t + (m + ((ws ++ ws').map f).sum) := by
  rw [List.map_append, List.map_append, List.map_cons, List.sum_append, List.sum_append,
    List.sum_cons]
  abel

theorem all_workers (check : T → Bool) (b : Bool) (t : Thread T) (ws ws' : List (Thread T)) :
    (b && (ws ++ t :: ws').all (Thread.ok check)) =
      (t.ok check && (b && (ws ++ ws').all (Thread.ok check))) := by
  rw [List.all_append, List.all_append, List.all_cons]
  cases t.ok check <;> simp

/-- What holds in every state. -/
structure Inv (check : T → Bool) (s : System T) : Prop where
  balanced : Balanced check s.q (s.sum Thread.held) (s.sum Thread.inLoop) (s.sum Thread.idles)
    (s.allOk check) s.added
  workers : ∀ t ∈ s.workers, t.Wf
  master : ∀ t, s.master = some t → t.Wf ∧ t.isEnded = false
  /-- No wake-up is lost: the master waits for checks that a worker holds. -/
  wakes : s.master = some .waiting → s.condMaster = false → s.q.queue = [] ∧ s.q.nTodo ≠ 0

theorem inv_start (check : T → Bool) (nBatchSize nWorkers : ℕ) :
    Inv check (System.start T nBatchSize nWorkers) := by
  have hsum : ∀ {M : Type} [AddCommMonoid M] (f : Thread T → M), f .entering = 0 →
      (System.start T nBatchSize nWorkers).sum f = 0 := by
    intro M _ f hf
    show 0 + ((List.replicate nWorkers Thread.entering).map f).sum = 0
    rw [List.map_replicate, hf, List.sum_replicate, nsmul_zero, add_zero]
  have hok : (System.start T nBatchSize nWorkers).allOk check = true := by
    show (true && (List.replicate nWorkers Thread.entering).all (Thread.ok check)) = true
    rw [Bool.true_and, List.all_eq_true]
    intro t ht
    rw [List.eq_of_mem_replicate ht]
    rfl
  refine ⟨⟨?_, ?_, ?_, ?_, ?_⟩, ?_, ?_, ?_⟩
  · rw [hsum _ rfl]
    rfl
  · rw [hsum _ rfl]
    exact le_rfl
  · rw [hok]
    rfl
  · rw [hsum _ rfl]
    rfl
  · rw [hsum _ rfl]
    rfl
  · intro t ht
    rw [List.eq_of_mem_replicate ht]
    exact ⟨Nat.zero_le _, Nat.zero_le _, fun _ => rfl⟩
  · intro t ht
    exact absurd ht (by simp [System.start])
  · intro ht
    exact absurd ht (by simp [System.start])

/-! ### The steps keep it -/

variable {s : System T}

theorem inv_worker {ws ws' : List (Thread T)} {condWorker : ℕ} (h : Inv check s)
    (hworkers : s.workers = ws ++ t :: ws') (hended : t.isEnded = false) :
    Inv check { s with
      q := (move check false s.q t).q, workers := ws ++ (move check false s.q t).thread :: ws',
      condMaster := s.condMaster || ((move check false s.q t).notify && s.masterWaits),
      condWorker := condWorker } := by
  have hwf : t.Wf := h.workers t (by rw [hworkers]; simp)
  have hbalanced := h.balanced
  rw [System.sum, System.sum, System.sum, System.allOk, hworkers, sum_workers, sum_workers,
    sum_workers, all_workers] at hbalanced
  refine ⟨?_, ?_, h.master, ?_⟩
  · rw [System.sum, System.sum, System.sum, System.allOk, sum_workers, sum_workers, sum_workers,
      all_workers]
    exact hbalanced.move hwf hended fun hmaster => absurd hmaster (by decide)
  · intro t' ht'
    rcases List.mem_append.mp ht' with hin | hin
    · exact h.workers t' (by rw [hworkers]; exact List.mem_append_left _ hin)
    · rcases List.mem_cons.mp hin with rfl | hin
      · exact (keeps_move check false s.q hwf).wf
      · exact h.workers t' (by rw [hworkers]; simp [hin])
  · intro hmaster hcond
    obtain ⟨hold, hnotify⟩ := Bool.or_eq_false_iff.mp hcond
    obtain ⟨hqueue, htodo⟩ := h.wakes hmaster hold
    rw [System.masterWaits, show s.master = some .waiting from hmaster] at hnotify
    exact ⟨move_queue_nil check false hwf hended hqueue,
      move_nTodo check hwf hended htodo (by simpa [Thread.isWaiting] using hnotify)⟩

theorem inv_master {condMaster : Bool} (h : Inv check s) (hmaster : s.master = some t)
    (hret : (move check true s.q t).ret = none) :
    Inv check { s with
      q := (move check true s.q t).q, master := some (move check true s.q t).thread,
      condMaster := condMaster } := by
  obtain ⟨hwf, hended⟩ := h.master t hmaster
  have hbalanced := h.balanced
  rw [System.sum, System.sum, System.sum, System.allOk, hmaster] at hbalanced
  refine ⟨hbalanced.move hwf hended fun _ => hret, h.workers, ?_, ?_⟩
  · intro t' ht'
    obtain rfl := Option.some.inj ht'
    exact ⟨(keeps_move check true s.q hwf).wf, move_isEnded check hwf hended hret⟩
  · exact fun hwaits _ => move_waits check hwf hended (Option.some.inj hwaits)

theorem Balanced.add {q : CCheckQueue T} {held : ℕ} {inLoop idles : ℤ} {ok : Bool} {added : List T}
    (h : Balanced check q held inLoop idles ok added) (vChecks : List T) :
    Balanced check (q.add vChecks) held inLoop idles ok (added ++ vChecks) := by
  refine ⟨?_, ?_, ?_, h.total, h.idle⟩
  · have htodo := h.todo
    show (q.nTodo + vChecks.length) % 2 ^ 32 = ((vChecks.reverse ++ q.queue).length + held) % 2 ^ 32
    rw [List.length_append, List.length_reverse]
    omega
  · have hfew := h.few
    show (vChecks.reverse ++ q.queue).length + held ≤ (added ++ vChecks).length
    rw [List.length_append, List.length_append, List.length_reverse]
    omega
  · show (q.fAllOk && ((vChecks.reverse ++ q.queue).all check && ok)) = (added ++ vChecks).all check
    rw [List.all_append, List.all_append, List.all_reverse, ← h.verdict]
    cases vChecks.all check <;> simp

theorem ok_of_held (check : T → Bool) (hwf : t.Wf) (hheld : t.held = 0) :
    t.ok check = true ∧ t.inLoop = t.idles := by
  cases t with
  | running vChecks fOk nNow =>
    obtain ⟨hlen, -, hfirst⟩ := hwf
    obtain rfl : nNow = 0 := hheld
    obtain rfl : vChecks = [] := List.length_eq_zero_iff.mp (Nat.le_zero.mp hlen)
    rw [Thread.ok, hfirst rfl]
    exact ⟨rfl, rfl⟩
  | waiting => exact ⟨rfl, rfl⟩
  | ended => exact ⟨rfl, rfl⟩

/-- **The master leaves** a round in which fewer than `2 ^ 32` checks were added: all of them have
been evaluated. -/
theorem leave_spec {b : Bool} (h : Inv check s) (hfew : s.added.length < 2 ^ 32)
    (hmaster : s.master = some t) (hret : (move check true s.q t).ret = some b) :
    b = s.added.all check ∧ ∀ w ∈ s.workers, w.held = 0 := by
  obtain ⟨hwf, hended⟩ := h.master t hmaster
  have hleaves := move_leaves check hwf hended hret
  have hbalanced := h.balanced
  rw [System.sum, System.sum, System.sum, System.allOk, hmaster] at hbalanced
  -- the count of the checks that are left is exact
  have hkeeps := (keeps_move check true s.q hwf).todo _ hbalanced.todo
  rw [hleaves.todo, hleaves.queue, hleaves.thread] at hkeeps
  have hle := hbalanced.few
  have hzero : (s.workers.map Thread.held).sum = 0 := by
    simp only [List.length_nil, Thread.held, Option.elim_some] at hkeeps hle
    omega
  have hall : ∀ w ∈ s.workers, w.held = 0 := fun w hw =>
    List.sum_eq_zero_iff_forall_eq_nat.mp hzero _ (List.mem_map_of_mem hw)
  refine ⟨?_, hall⟩
  have hok : s.workers.all (Thread.ok check) = true :=
    List.all_eq_true.mpr fun w hw => (ok_of_held check (h.workers w hw) (hall w hw)).1
  rw [← hbalanced.verdict, hok, ← hleaves.verdict, Option.elim_some, Bool.and_true]

theorem inv_step {s' : System T} {e : Event T} (h : Inv check s) (hfew : s.added.length < 2 ^ 32)
    (hstep : Step check s e s') : Inv check s' := by
  cases hstep with
  | add vChecks hmaster =>
    refine ⟨h.balanced.add vChecks, h.workers, h.master, fun hwaits => ?_⟩
    exact absurd (hmaster.symm.trans hwaits) (by simp)
  | wait hmaster =>
    have hbalanced := h.balanced
    rw [System.sum, System.sum, System.sum, System.allOk, hmaster] at hbalanced
    refine ⟨hbalanced, h.workers, ?_, fun hwaits => absurd hwaits (by simp [Thread.entering])⟩
    intro t ht
    obtain rfl := Option.some.inj ht
    exact ⟨⟨Nat.zero_le _, Nat.zero_le _, fun _ => rfl⟩, rfl⟩
  | worker hworkers hended => exact inv_worker h hworkers hended
  | master hmaster hret => exact inv_master h hmaster hret
  | @leave t fRet hmaster hret =>
    obtain ⟨hwf, hended⟩ := h.master t hmaster
    have hleaves := move_leaves check hwf hended hret
    obtain ⟨-, hall⟩ := leave_spec h hfew hmaster hret
    have hbalanced := h.balanced
    rw [System.sum, System.sum, System.sum, System.allOk, hmaster] at hbalanced
    have hkeeps := keeps_move check true s.q hwf
    have htotal := hkeeps.total
    have hidle := hkeeps.idle
    rw [hleaves.thread] at htotal hidle
    have hzero : (s.workers.map Thread.held).sum = 0 :=
      List.sum_eq_zero fun n hn => by
        obtain ⟨w, hw, rfl⟩ := List.mem_map.mp hn
        exact hall w hw
    have hok : s.workers.all (Thread.ok check) = true :=
      List.all_eq_true.mpr fun w hw => (ok_of_held check (h.workers w hw) (hall w hw)).1
    refine ⟨⟨?_, ?_, ?_, ?_, ?_⟩, h.workers, fun t' ht' => absurd ht' (by simp),
      fun hwaits => absurd hwaits (by simp)⟩
    · show (move check true s.q t).q.nTodo =
        ((move check true s.q t).q.queue.length + (0 + (s.workers.map Thread.held).sum)) % 2 ^ 32
      rw [hleaves.todo, hleaves.queue, hzero]
      rfl
    · show (move check true s.q t).q.queue.length + (0 + (s.workers.map Thread.held).sum) ≤ 0
      rw [hleaves.queue, hzero]
      exact le_rfl
    · show ((move check true s.q t).q.fAllOk && ((move check true s.q t).q.queue.all check &&
        (true && s.workers.all (Thread.ok check)))) = true
      rw [hleaves.allOk, hleaves.queue, hok]
      rfl
    · show (move check true s.q t).q.nTotal = 0 + (s.workers.map Thread.inLoop).sum
      have hsum : s.q.nTotal = t.inLoop + (s.workers.map Thread.inLoop).sum := hbalanced.total
      have hended' : (move check true s.q t).q.nTotal - 0 = s.q.nTotal - t.inLoop := htotal
      omega
    · show (move check true s.q t).q.nIdle = 0 + (s.workers.map Thread.idles).sum
      have hsum : s.q.nIdle = t.idles + (s.workers.map Thread.idles).sum := hbalanced.idle
      have hended' : (move check true s.q t).q.nIdle - 0 = s.q.nIdle - t.idles := hidle
      omega

/-! ### Wait returns -/

/-- A step that is not a wake-up nobody asked for. -/
def Prompted (check : T → Bool) (s : System T) (e : Event T) (s' : System T) : Prop :=
  Step check s e s' ∧ e ≠ .spurious

/-- What is left to do before `Wait` returns. -/
def System.size (s : System T) : ℕ :=
  4 * s.q.queue.length + s.sum Thread.weight + s.condWorker + s.condMaster.toNat

theorem notified_of_event {notified : Bool} (h : t.event notified ≠ .spurious)
    (hwaits : t.isWaiting = true) : notified = true := by
  cases notified with
  | true => rfl
  | false => exact absurd (if_pos (by rw [hwaits]; rfl)) h

theorem event_ne_returned (t : Thread T) (notified fRet : Bool) :
    t.event notified ≠ .returned fRet := by
  unfold Thread.event
  split <;> simp

theorem size_step {s' : System T} {e : Event T} (h : Inv check s) (hmaster : s.master ≠ none)
    (hstep : Prompted check s e s') (hgoal : ¬ ∃ fRet, e = .returned fRet) :
    s'.size < s.size ∧ s'.master ≠ none ∧ s'.added = s.added := by
  obtain ⟨hstep, hprompted⟩ := hstep
  cases hstep with
  | add vChecks hnone => exact absurd hnone hmaster
  | wait hnone => exact absurd hnone hmaster
  | @worker t ws ws' hworkers hended =>
    refine ⟨?_, hmaster, rfl⟩
    have hsize := size_move check false s.q hended
    have htell : (s.condMaster || ((move check false s.q t).notify && s.masterWaits)).toNat ≤
        s.condMaster.toNat + (move check false s.q t).notify.toNat := by
      cases s.condMaster <;> cases (move check false s.q t).notify <;> cases s.masterWaits <;> decide
    have hold : s.sum Thread.weight =
        t.weight + (s.master.elim 0 Thread.weight + ((ws ++ ws').map Thread.weight).sum) := by
      rw [System.sum, hworkers, sum_workers]
    have hnew := sum_workers Thread.weight (s.master.elim 0 Thread.weight)
      (move check false s.q t).thread ws ws'
    rw [System.size, System.size, System.sum, hnew, hold]
    cases hwaits : t.isWaiting with
    | true =>
      have hcond : 0 < s.condWorker := of_decide_eq_true (notified_of_event hprompted hwaits)
      rw [hwaits, Bool.toNat_true] at hsize
      rw [if_pos rfl]
      dsimp only
      omega
    | false =>
      rw [hwaits, Bool.toNat_false] at hsize
      rw [if_neg Bool.false_ne_true]
      dsimp only
      omega
  | @master t hsome hret =>
    refine ⟨?_, by simp, rfl⟩
    have hsize := size_move check true s.q (h.master t hsome).2
    rw [System.size, System.size, System.sum, System.sum, hsome]
    cases hwaits : t.isWaiting with
    | true =>
      rw [notified_of_event hprompted hwaits]
      rw [hwaits] at hsize
      show 4 * (move check true s.q t).q.queue.length +
        ((move check true s.q t).thread.weight + _) + s.condWorker + 0 < _
      simp only [Bool.toNat_true, Option.elim_some] at hsize ⊢
      omega
    | false =>
      rw [hwaits, Bool.toNat_false] at hsize
      rw [Bool.not_false, Bool.and_true]
      show 4 * (move check true s.q t).q.queue.length +
        ((move check true s.q t).thread.weight + _) + s.condWorker + s.condMaster.toNat < _
      simp only [Option.elim_some]
      omega
  | leave hsome hret => exact absurd ⟨_, rfl⟩ hgoal

theorem exists_step (h : Inv check s) (hmaster : s.master ≠ none) :
    ∃ e s', Prompted check s e s' := by
  obtain ⟨t, ht⟩ := Option.ne_none_iff_exists'.mp hmaster
  obtain ⟨hwf, hended⟩ := h.master t ht
  have hwork : ∀ (u : Thread T) (notified : Bool), (u.isWaiting = true → notified = true) →
      u.event notified ≠ .spurious := by
    intro u notified hn
    rw [Thread.event]
    cases hu : u.isWaiting with
    | true =>
      rw [hn hu]
      simp
    | false => simp
  by_cases hcond : t.isWaiting = true → s.condMaster = true
  · -- the master itself goes on
    cases hret : (move check true s.q t).ret with
    | none => exact ⟨_, _, .master ht hret, hwork t s.condMaster hcond⟩
    | some fRet => exact ⟨_, _, .leave ht hret, by simp⟩
  · obtain ⟨hwaits, hnot⟩ := Classical.not_imp.mp hcond
    obtain rfl : t = .waiting := by
      cases t with
      | running vChecks fOk nNow => exact absurd hwaits (by simp [Thread.isWaiting])
      | waiting => rfl
      | ended => exact absurd hended (by simp [Thread.isEnded])
    obtain ⟨hqueue, htodo⟩ := h.wakes ht (Bool.eq_false_iff.mpr hnot)
    -- what is left to do is held by a worker
    have hheld : (s.workers.map Thread.held).sum ≠ 0 := by
      intro hzero
      have hcount := h.balanced.todo
      rw [System.sum, ht, hqueue, hzero] at hcount
      exact htodo hcount
    obtain ⟨w, hw, hpos⟩ : ∃ w ∈ s.workers, Thread.held w ≠ 0 := by
      by_contra hall
      refine hheld (List.sum_eq_zero fun n hn => ?_)
      obtain ⟨w, hw, rfl⟩ := List.mem_map.mp hn
      by_contra hne
      exact hall ⟨w, hw, hne⟩
    obtain ⟨ws, ws', hworkers⟩ := List.append_of_mem hw
    have hrunning : w.isWaiting = false ∧ w.isEnded = false := by
      cases w with
      | running vChecks fOk nNow => exact ⟨rfl, rfl⟩
      | waiting => exact absurd rfl hpos
      | ended => exact absurd rfl hpos
    refine ⟨_, _, .worker hworkers hrunning.2, hwork w _ fun hwaits' => ?_⟩
    exact absurd (hrunning.1.symm.trans hwaits') (by decide)

theorem certain_returned (h : Inv check s) (hfew : s.added.length < 2 ^ 32)
    (hmaster : s.master ≠ none) :
    Schedules.Certain (Prompted check) (fun e => ∃ fRet, e = .returned fRet) s := by
  refine Schedules.certain_of_measure
    (I := fun s => Inv check s ∧ s.added.length < 2 ^ 32 ∧ s.master ≠ none) System.size
    (fun s hs => exists_step hs.1 hs.2.2) (fun s e s' hs hstep hgoal => ?_) ⟨h, hfew, hmaster⟩
  obtain ⟨hless, hmaster', hadded⟩ := size_step hs.1 hs.2.2 hstep hgoal
  exact ⟨⟨inv_step hs.1 hs.2.1 hstep.1, hadded ▸ hs.2.1, hmaster'⟩, hless⟩

/-! ### Rounds -/

/-- The steps of rounds with fewer than `2 ^ 32` checks each. -/
def FewStep (check : T → Bool) (s : System T) (e : Event T) (s' : System T) : Prop :=
  Step check s e s' ∧ s'.added.length < 2 ^ 32

structure Reports (check : T → Bool) (s : System T) : Prop where
  /-- `Wait` returns whether all checks of the round hold, when all of them are done, and it
  leaves the queue as it was. -/
  returned : ∀ fRet s', Step check s (.returned fRet) s' →
    (fRet = true ↔ ∀ c ∈ s.added, check c = true) ∧ (∀ w ∈ s'.workers, w.held = 0) ∧
      s'.q.queue = [] ∧ s'.q.nTodo = 0 ∧ s'.q.fAllOk = true
  /-- `Wait` returns, however the threads are scheduled. -/
  returns : s.master ≠ none →
    Schedules.Certain (Prompted check) (fun e => ∃ fRet, e = .returned fRet) s
  /-- The assertion at the beginning of a round holds. -/
  idle : s.master = none → s.added = [] → s.q.IsIdle = true

/-- **The queue reports every failure**, in every round of every run. -/
theorem run_reports (check : T → Bool) (nBatchSize nWorkers : ℕ) {es : List (Event T)}
    {s : System T} (hrun : Runs.Run (FewStep check) (System.start T nBatchSize nWorkers) es s) :
    Reports check s := by
  have hinv : Inv check s ∧ s.added.length < 2 ^ 32 :=
    hrun.invariant (I := fun s => Inv check s ∧ s.added.length < 2 ^ 32)
      (fun s e s' hs hstep => ⟨inv_step hs.1 hs.2 hstep.1, hstep.2⟩)
      ⟨inv_start check nBatchSize nWorkers, Nat.two_pow_pos 32⟩
  obtain ⟨h, hfew⟩ := hinv
  refine ⟨fun fRet s' hstep => ?_, certain_returned h hfew, fun hmaster hadded => ?_⟩
  · generalize he : Event.returned fRet = e at hstep
    cases hstep with
    | add => exact absurd he (by simp)
    | wait => exact absurd he (by simp)
    | @worker t => exact absurd he.symm (event_ne_returned t _ fRet)
    | @master t => exact absurd he.symm (event_ne_returned t _ fRet)
    | @leave t _ hmaster hret =>
      obtain rfl := Event.returned.inj he
      obtain ⟨hwf, hended⟩ := h.master t hmaster
      have hleaves := move_leaves check hwf hended hret
      obtain ⟨hverdict, hheld⟩ := leave_spec h hfew hmaster hret
      refine ⟨?_, hheld, hleaves.queue, hleaves.todo, hleaves.allOk⟩
      rw [hverdict, List.all_eq_true]
  · have hbalanced := h.balanced
    have hle := hbalanced.few
    rw [hadded, List.length_nil] at hle
    have hqueue : s.q.queue = [] := List.length_eq_zero_iff.mp (by omega)
    have hheld : s.sum Thread.held = 0 := by omega
    have htodo := hbalanced.todo
    rw [hheld, hqueue] at htodo
    have hverdict := hbalanced.verdict
    rw [hadded, List.all_nil, Bool.and_eq_true] at hverdict
    have heq : s.q.nTotal = s.q.nIdle := by
      rw [System.sum, hmaster, Option.elim_none, Nat.zero_add] at hheld
      rw [hbalanced.total, hbalanced.idle, System.sum, System.sum, hmaster, Option.elim_none,
        Option.elim_none]
      have hmap : s.workers.map Thread.inLoop = s.workers.map Thread.idles :=
        List.map_congr_left fun w hw => (ok_of_held check (h.workers w hw)
          (List.sum_eq_zero_iff_forall_eq_nat.mp hheld _ (List.mem_map_of_mem hw))).2
      rw [hmap]
    rw [CCheckQueue.IsIdle, heq, htodo, hverdict.1]
    simp

theorem step_worker (check : T → Bool) (s : System T) (t : Thread T) (ws ws' : List (Thread T))
    (hworkers : s.workers = ws ++ t :: ws') (hended : t.isEnded = false) :
    Step check s (t.event (decide (0 < s.condWorker))) { s with
      q := (move check false s.q t).q, workers := ws ++ (move check false s.q t).thread :: ws',
      condMaster := s.condMaster || ((move check false s.q t).notify && s.masterWaits),
      condWorker := if t.isWaiting then s.condWorker - 1 else s.condWorker } :=
  .worker hworkers hended

/-- A round with a check that fails, seen by the master when the worker has done its part. -/
theorem run_reports_one : ∃ es s, Runs.Run (FewStep id) (System.start Bool 128 1) es s ∧
    s.added = [true, false] ∧ s.master = some (.running [] true 1) ∧ Reports id s := by
  have hrun : ∃ es s, Runs.Run (FewStep id) (System.start Bool 128 1) es s ∧
      s.added = [true, false] ∧ s.master = some (.running [] true 1) :=
    ⟨_, _, .cons ⟨.add [true, false] rfl, by decide⟩ (.cons ⟨.wait rfl, by decide⟩
      (.cons ⟨step_worker id _ .entering [] [] rfl rfl, by decide⟩
      (.cons ⟨step_worker id _ (.running [false] true 1) [] [] rfl rfl, by decide⟩
      (.cons ⟨.master rfl rfl, by decide⟩
      (.cons ⟨.master rfl rfl, by decide⟩
      (.cons ⟨step_worker id _ (.running [] false 1) [] [] rfl rfl, by decide⟩ (.nil _))))))),
      rfl, rfl⟩
  obtain ⟨es, s, hrun, hadded, hmaster⟩ := hrun
  exact ⟨es, s, hrun, hadded, hmaster, run_reports id 128 1 hrun⟩

/-! ### A round that is too long -/

/-- All checks fail, some workers have taken some of them, and the count says that nothing is left
to do. -/
structure Overflown (n q total free : ℕ) (s : System Bool) : Prop where
  queue : s.q.queue = List.replicate q false
  idle : s.q.nIdle = 0
  total : s.q.nTotal = total
  allOk : s.q.fAllOk = true
  todo : s.q.nTodo = 0
  batch : s.q.nBatchSize = 2 ^ 32 - 1
  master : s.master = none
  workers : ∃ busy, s.workers = busy ++ List.replicate free .entering
  added : s.added = List.replicate n false

def share (q total : ℕ) : ℕ :=
  max 1 (min (2 ^ 32 - 1) (q % 2 ^ 32 / (((total : ℤ) + 1 + 0 + 1) % 2 ^ 32).toNat))

theorem Overflown.next {n q total free : ℕ} {s : System Bool}
    (h : Overflown n q total (free + 1) s) (hq : 0 < q) : ∃ s', Step id s .work s' ∧
      Overflown n (q - share q total) (total + 1) free s' := by
  obtain ⟨busy, hworkers⟩ := h.workers
  have hsplit : s.workers = busy ++ .entering :: List.replicate free .entering := by
    rw [hworkers, List.replicate_succ]
  have hnNow : CCheckQueue.nNow { s.q with nTotal := s.q.nTotal + 1 } = share q total := by
    rw [CCheckQueue.nNow, h.queue, h.batch, h.idle, h.total, List.length_replicate]
    rfl
  have hmove : move id false s.q .entering =
      ⟨{ s.q with
          nTotal := s.q.nTotal + 1, queue := s.q.queue.drop (share q total) },
        .running (s.q.queue.take (share q total)) s.q.fAllOk (share q total), false, none⟩ := by
    have hne : s.q.queue.isEmpty = false := by
      rw [h.queue, List.isEmpty_replicate]
      exact decide_eq_false hq.ne'
    show CCheckQueue.scan { s.q with nTotal := s.q.nTotal + 1 } false false = _
    rw [CCheckQueue.scan, if_neg (by rw [hne]; decide), hnNow]
  refine ⟨_, step_worker id s .entering busy (List.replicate free .entering) hsplit rfl, ?_⟩
  rw [hmove]
  refine ⟨?_, h.idle, ?_, h.allOk, h.todo, h.batch, h.master, ⟨busy ++ [_], by simp; rfl⟩, h.added⟩
  · show s.q.queue.drop (share q total) = _
    rw [h.queue, List.drop_replicate]
  · show s.q.nTotal + 1 = _
    rw [h.total]
    rfl

theorem Overflown.drain {n q total free : ℕ} {s : System Bool} (h : Overflown n q total free s)
    (hfree : q ≤ free) : ∃ es s' total' free', Runs.Run (Step id) s es s' ∧
      Overflown n 0 total' free' s' := by
  induction hn : q using Nat.strongRecOn generalizing q total free s with
  | ind m ih =>
    subst hn
    rcases Nat.eq_zero_or_pos q with rfl | hq
    · exact ⟨[], s, total, free, .nil s, h⟩
    obtain ⟨k, rfl⟩ : ∃ k, free = k + 1 := ⟨free - 1, by omega⟩
    obtain ⟨s₁, hstep, h₁⟩ := h.next hq
    have hshare : 0 < share q total := Nat.lt_of_lt_of_le one_pos (le_max_left _ _)
    obtain ⟨es, s', total', free', hrun, h'⟩ := ih _ (by omega) h₁ (by omega) rfl
    exact ⟨_, s', total', free', .cons hstep hrun, h'⟩

/-- **A round of `2 ^ 32` checks**, all of which fail: when the workers hold them all and have not
evaluated any, `Wait` returns that they hold. -/
theorem early_return : ∃ es s s',
    Runs.Run (Step id) (System.start Bool (2 ^ 32 - 1) 1717986923) es s ∧
      Step id s (.returned true) s' ∧ s.added = List.replicate (2 ^ 32) false := by
  suffices hall : ∀ n : ℕ, n = 2 ^ 32 → ∃ es s s',
      Runs.Run (Step id) (System.start Bool (2 ^ 32 - 1) 1717986923) es s ∧
        Step id s (.returned true) s' ∧ s.added = List.replicate n false from hall _ rfl
  intro n hn
  -- the count of the checks starts at 0 again
  have h₀ : Overflown n n 0 1717986923 { System.start Bool (2 ^ 32 - 1) 1717986923 with
      q := (CCheckQueue.new Bool (2 ^ 32 - 1)).add (List.replicate n false)
      condWorker := (System.start Bool (2 ^ 32 - 1) 1717986923).notifyWorkers
        (List.replicate n false).length
      added := [] ++ List.replicate n false } := by
    refine ⟨?_, rfl, rfl, rfl, ?_, rfl, rfl, ⟨[], rfl⟩, rfl⟩
    · show (List.replicate n false).reverse ++ [] = _
      rw [List.append_nil, List.reverse_replicate]
    · show (0 + (List.replicate n false).length) % 2 ^ 32 = 0
      rw [List.length_replicate, hn, Nat.zero_add, Nat.mod_self]
  have hadd : Step id (System.start Bool (2 ^ 32 - 1) 1717986923) (.add (List.replicate n false)) _ :=
    .add (List.replicate n false) rfl
  -- the first workers take large shares
  obtain ⟨s₁, hs₁, h₁⟩ := h₀.next (by omega)
  rw [show n - share n 0 = 4294967295 by rw [hn]; decide] at h₁
  obtain ⟨s₂, hs₂, h₂⟩ := h₁.next (by decide)
  rw [show 4294967295 - share 4294967295 (0 + 1) = 2863311530 by decide] at h₂
  obtain ⟨s₃, hs₃, h₃⟩ := h₂.next (by decide)
  rw [show 2863311530 - share 2863311530 (0 + 1 + 1) = 2147483648 by decide] at h₃
  obtain ⟨s₄, hs₄, h₄⟩ := h₃.next (by decide)
  rw [show 2147483648 - share 2147483648 (0 + 1 + 1 + 1) = 1717986919 by decide] at h₄
  obtain ⟨es, s, total, free, hrun, h⟩ := h₄.drain le_rfl
  have hret : (move id true s.q .entering).ret = some true := by
    show (CCheckQueue.scan { s.q with nTotal := s.q.nTotal + 1 } true false).ret = _
    rw [CCheckQueue.scan, if_pos (by rw [h.queue]; rfl), if_pos (by rw [h.todo]; rfl), h.allOk]
  refine ⟨_, _, _, (Runs.Run.cons hadd (.cons hs₁ (.cons hs₂ (.cons hs₃ (.cons hs₄ hrun))))).snoc
    (.wait h.master), .leave (s := { s with master := some .entering }) rfl hret, h.added⟩

end CheckQueue

end Stonecoin
