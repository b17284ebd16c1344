/-
The queue of script checks (`checkqueue.h`: `CCheckQueue`).

One thread, the master, adds batches of checks, and any number of workers evaluate them; when the
master waits, it works as well.  A step of the system is one stretch of one thread under the mutex,
or one check that a thread evaluates without it.

A thread that waits for a condition variable may wake up when it has been notified, and also when
it has not.  Which of the waiting workers were notified makes no difference: the number of them
is kept.

What a step of a thread does (`move`) is a function of the queue and the thread.
-/
import Mathlib.Algebra.BigOperators.Group.List.Basic
import Mathlib.Tactic.Ring

namespace Stonecoin

namespace CheckQueue

/-! ### The queue -/

/-- The state that the mutex protects.  The back of `queue` comes first in the list. -/
structure CCheckQueue (T : Type) where
  queue : List T
  nIdle : ℤ
  nTotal : ℤ
  fAllOk : Bool
  nTodo : ℕ
  fQuit : Bool
  nBatchSize : ℕ

/-- A thread inside `Loop`: it evaluates the checks it holds (and it has taken `nNow` of them, none
in the first pass), or it waits, or it has left. -/
inductive Thread (T : Type)
  | running (vChecks : List T) (fOk : Bool) (nNow : ℕ)
  | waiting
  | ended

/-- What a step of a thread leads to: the queue, the thread, whether the master was notified, and
what `Loop` returned. -/
structure Moved (T : Type) where
  q : CCheckQueue T
  thread : Thread T
  notify : Bool
  ret : Option Bool

variable {T : Type}

namespace CCheckQueue

/-- The constructor. -/
def new (T : Type) (nBatchSizeIn : ℕ) : CCheckQueue T :=
  ⟨[], 0, 0, true, 0, false, nBatchSizeIn⟩

def add (q : CCheckQueue T) (vChecks : List T) : CCheckQueue T :=
  { q with queue := vChecks.reverse ++ q.queue, nTodo := (q.nTodo + vChecks.length) % 2 ^ 32 }

def IsIdle (q : CCheckQueue T) : Bool :=
  decide (q.nTotal = q.nIdle) && decide (q.nTodo = 0) && q.fAllOk

def nNow (q : CCheckQueue T) : ℕ :=
  max 1 (min q.nBatchSize
    (q.queue.length % 2 ^ 32 / ((q.nTotal + q.nIdle + 1) % 2 ^ 32).toNat))

def cleanUp (q : CCheckQueue T) (fOk : Bool) (nNow : ℕ) : CCheckQueue T :=
  if nNow ≠ 0 then
    { q with fAllOk := q.fAllOk && fOk, nTodo := (q.nTodo + 2 ^ 32 - nNow) % 2 ^ 32 }
  else { q with nTotal := q.nTotal + 1 }

/-- Whether the master is told that the last check is done. -/
def tellsMaster (q : CCheckQueue T) (fMaster : Bool) (nNow : ℕ) : Bool :=
  decide (nNow ≠ 0) && (decide (q.nTodo = 0) && !fMaster)

/-- The rest of the stretch under the mutex: leave, wait, or take some checks. -/
def scan (q : CCheckQueue T) (fMaster notify : Bool) : Moved T :=
  if q.queue.isEmpty then
    if (fMaster || q.fQuit) && decide (q.nTodo = 0) then
      ⟨{ q with nTotal := q.nTotal - 1, fAllOk := fMaster || q.fAllOk }, .ended, notify,
        some q.fAllOk⟩
    else ⟨{ q with nIdle := q.nIdle + 1 }, .waiting, notify, none⟩
  else
    ⟨{ q with queue := q.queue.drop q.nNow },
      .running (q.queue.take q.nNow) q.fAllOk q.nNow, notify, none⟩

end CCheckQueue

def move (check : T → Bool) (fMaster : Bool) (q : CCheckQueue T) : Thread T → Moved T
  | .running (c :: vChecks) fOk nNow =>
    ⟨q, .running vChecks (if fOk then check c else fOk) nNow, false, none⟩
  | .running [] fOk nNow =>
    (q.cleanUp fOk nNow).scan fMaster ((q.cleanUp fOk nNow).tellsMaster fMaster nNow)
  | .waiting => { q with nIdle := q.nIdle - 1 }.scan fMaster false
  | .ended => ⟨q, .ended, false, none⟩

/-! ### The system -/

namespace Thread

/-- The checks that a thread has taken and not reported yet. -/
def held : Thread T → ℕ
  | running _ _ nNow => nNow
  | _ => 0

def isWaiting : Thread T → Bool
  | waiting => true
  | _ => false

def isEnded : Thread T → Bool
  | ended => true
  | _ => false

def entering : Thread T := running [] true 0

end Thread

/-- The queue, the master when it is inside of `Wait`, the workers, the notifications under way,
and the checks that the master has added since `Wait` returned last. -/
structure System (T : Type) where
  q : CCheckQueue T
  master : Option (Thread T)
  workers : List (Thread T)
  condMaster : Bool
  condWorker : ℕ
  added : List T

namespace System

/-- The beginning, with some workers. -/
def start (T : Type) (nBatchSize nWorkers : ℕ) : System T :=
  ⟨.new T nBatchSize, none, List.replicate nWorkers .entering, false, 0, []⟩

def notifyWorkers (s : System T) (n : ℕ) : ℕ :=
  if n = 0 then s.condWorker
  else if n = 1 then min (s.condWorker + 1) (s.workers.countP Thread.isWaiting)
  else s.workers.countP Thread.isWaiting

def masterWaits (s : System T) : Bool := s.master.elim false Thread.isWaiting

end System

inductive Event (T : Type)
  | add (vChecks : List T)
  | wait
  | work
  | spurious
  | returned (fRet : Bool)

/-- A step of a thread, or a wake-up that nobody asked for. -/
def Thread.event (t : Thread T) (notified : Bool) : Event T :=
  if t.isWaiting && !notified then .spurious else .work

inductive Step (check : T → Bool) : System T → Event T → System T → Prop
  | add {s : System T} (vChecks : List T) (hmaster : s.master = none) :
      Step check s (.add vChecks) { s with
        q := s.q.add vChecks, condWorker := s.notifyWorkers vChecks.length,
        added := s.added ++ vChecks }
  | wait {s : System T} (hmaster : s.master = none) :
      Step check s .wait { s with master := some .entering }
  | worker {s : System T} {t : Thread T} {ws ws' : List (Thread T)}
      (hworkers : s.workers = ws ++ t :: ws') (hended : t.isEnded = false) :
      Step check s (t.event (decide (0 < s.condWorker))) { s with
        q := (move check false s.q t).q, workers := ws ++ (move check false s.q t).thread :: ws',
        condMaster := s.condMaster || ((move check false s.q t).notify && s.masterWaits),
        condWorker := if t.isWaiting then s.condWorker - 1 else s.condWorker }
  | master {s : System T} {t : Thread T} (hmaster : s.master = some t)
      (hret : (move check true s.q t).ret = none) :
      Step check s (t.event s.condMaster) { s with
        q := (move check true s.q t).q, master := some (move check true s.q t).thread,
        condMaster := s.condMaster && !t.isWaiting }
  | leave {s : System T} {t : Thread T} {fRet : Bool} (hmaster : s.master = some t)
      (hret : (move check true s.q t).ret = some fRet) :
      Step check s (.returned fRet) { s with
        q := (move check true s.q t).q, master := none, condMaster := false, added := [] }

/-! ### What a step of a thread does -/

namespace Thread

def inLoop : Thread T → ℤ
  | running _ _ nNow => if nNow = 0 then 0 else 1
  | waiting => 1
  | ended => 0

def idles : Thread T → ℤ
  | waiting => 1
  | _ => 0

/-- What the thread has found and what is left of its batch. -/
def ok (check : T → Bool) : Thread T → Bool
  | running vChecks fOk _ => fOk && vChecks.all check
  | _ => true

/-- The checks that are left are some of those taken. -/
def Wf : Thread T → Prop
  | running vChecks fOk nNow => vChecks.length ≤ nNow ∧ nNow ≤ 2 ^ 32 ∧ (nNow = 0 → fOk = true)
  | _ => True

end Thread

theorem nNow_pos (q : CCheckQueue T) : 0 < q.nNow := Nat.lt_of_lt_of_le one_pos (le_max_left _ _)

theorem nNow_le {q : CCheckQueue T} (h : 0 < q.queue.length) : q.nNow ≤ q.queue.length :=
  max_le h ((min_le_right _ _).trans ((Nat.div_le_self _ _).trans (Nat.mod_le _ _)))

theorem nNow_le_pow (q : CCheckQueue T) : q.nNow ≤ 2 ^ 32 :=
  max_le (by decide) ((min_le_right _ _).trans ((Nat.div_le_self _ _).trans
    (Nat.mod_lt _ (by decide)).le))

/-- The three ends of a stretch under the mutex. -/
inductive Scanned (q : CCheckQueue T) (fMaster notify : Bool) : Moved T → Prop
  | leave (hqueue : q.queue = []) (htodo : q.nTodo = 0) :
      Scanned q fMaster notify
        ⟨{ q with nTotal := q.nTotal - 1, fAllOk := fMaster || q.fAllOk }, .ended, notify,
          some q.fAllOk⟩
  | wait (hqueue : q.queue = []) (htodo : fMaster = true → q.nTodo ≠ 0) :
      Scanned q fMaster notify ⟨{ q with nIdle := q.nIdle + 1 }, .waiting, notify, none⟩
  | take (hpos : 0 < q.nNow) (hle : q.nNow ≤ q.queue.length) :
      Scanned q fMaster notify ⟨{ q with queue := q.queue.drop q.nNow },
        .running (q.queue.take q.nNow) q.fAllOk q.nNow, notify, none⟩

theorem scan_cases (q : CCheckQueue T) (fMaster notify : Bool) :
    Scanned q fMaster notify (q.scan fMaster notify) := by
  unfold CCheckQueue.scan
  split
  next hempty =>
    have hqueue : q.queue = [] := List.isEmpty_iff.mp hempty
    split
    next hdone =>
      rw [Bool.and_eq_true, decide_eq_true_iff] at hdone
      exact .leave hqueue hdone.2
    next hnot =>
      refine .wait hqueue fun hmaster htodo => hnot ?_
      rw [hmaster, htodo]
      rfl
  next hne =>
    have hlen : 0 < q.queue.length := List.length_pos_iff.mpr fun h => hne (by rw [h]; rfl)
    exact .take (nNow_pos q) (nNow_le hlen)

/-- What a step leaves alone of a thread that holds some checks and is counted or not: checks are
neither lost nor counted twice, and the thread is counted where it is. -/
structure Keeps (q : CCheckQueue T) (held : ℕ) (inLoop idles : ℤ) (m : Moved T) : Prop where
  wf : m.thread.Wf
  todo : ∀ rest, q.nTodo = (q.queue.length + (held + rest)) % 2 ^ 32 →
    m.q.nTodo = (m.q.queue.length + (m.thread.held + rest)) % 2 ^ 32
  few : m.q.queue.length + m.thread.held ≤ q.queue.length + held
  total : m.q.nTotal - m.thread.inLoop = q.nTotal - inLoop
  idle : m.q.nIdle - m.thread.idles = q.nIdle - idles

theorem keeps_scan (q : CCheckQueue T) (fMaster notify : Bool) :
    Keeps q 0 1 0 (q.scan fMaster notify) := by
  generalize hm : q.scan fMaster notify = m
  have hscan := scan_cases q fMaster notify
  rw [hm] at hscan
  cases hscan with
  | leave hqueue htodo =>
    exact ⟨trivial, fun rest h => h, le_rfl, by simp [Thread.inLoop], by simp [Thread.idles]⟩
  | wait hqueue htodo =>
    exact ⟨trivial, fun rest h => h, le_rfl, by simp [Thread.inLoop], by simp [Thread.idles]⟩
  | take hpos hle =>
    have hdrop : (q.queue.drop q.nNow).length + q.nNow = q.queue.length := by
      rw [List.length_drop]
      omega
    refine ⟨⟨List.length_take_le _ _, nNow_le_pow q, fun h => absurd h hpos.ne'⟩, ?_, ?_, ?_, ?_⟩
    · intro rest h
      show q.nTodo = ((q.queue.drop q.nNow).length + (q.nNow + rest)) % 2 ^ 32
      rw [← Nat.add_assoc, hdrop, h, Nat.zero_add]
    · exact hdrop.le
    · show q.nTotal - (if q.nNow = 0 then 0 else 1) = q.nTotal - 1
      rw [if_neg hpos.ne']
    · rfl

theorem keeps_move (check : T → Bool) (fMaster : Bool) (q : CCheckQueue T) {t : Thread T}
    (hwf : t.Wf) : Keeps q t.held t.inLoop t.idles (move check fMaster q t) := by
  cases t with
  | running vChecks fOk nNow =>
    obtain ⟨hlen, hpow, hfirst⟩ := hwf
    cases vChecks with
    | cons c vChecks =>
      have hpos : nNow ≠ 0 := by
        rintro rfl
        exact absurd hlen (by simp)
      exact ⟨⟨(Nat.le_succ _).trans hlen, hpow, fun h => absurd h hpos⟩, fun rest h => h, le_rfl,
        rfl, rfl⟩
    | nil =>
      have hscan := keeps_scan (q.cleanUp fOk nNow) fMaster
        ((q.cleanUp fOk nNow).tellsMaster fMaster nNow)
      by_cases hzero : nNow = 0
      · -- the first pass: the thread has not been counted before
        subst hzero
        refine ⟨hscan.wf, hscan.todo, hscan.few, ?_, hscan.idle⟩
        have htotal := hscan.total
        rw [show (q.cleanUp fOk 0).nTotal = q.nTotal + 1 from rfl] at htotal
        rw [Thread.inLoop, if_pos rfl]
        exact htotal.trans (by ring)
      · have hclean : q.cleanUp fOk nNow = { q with
            fAllOk := q.fAllOk && fOk, nTodo := (q.nTodo + 2 ^ 32 - nNow) % 2 ^ 32 } := if_pos hzero
        rw [move]
        rw [hclean] at hscan ⊢
        refine ⟨hscan.wf, ?_, ?_, ?_, hscan.idle⟩
        · intro rest h
          have htodo : (q.nTodo + 2 ^ 32 - nNow) % 2 ^ 32 =
              (q.queue.length + (0 + rest)) % 2 ^ 32 := by
            rw [h, Thread.held]
            omega
          exact hscan.todo rest htodo
        · exact hscan.few.trans (Nat.add_le_add_left (Nat.zero_le _) _)
        · rw [Thread.inLoop, if_neg hzero]
          exact hscan.total
  | waiting =>
    have hscan := keeps_scan { q with nIdle := q.nIdle - 1 } fMaster false
    refine ⟨hscan.wf, hscan.todo, hscan.few, hscan.total, ?_⟩
    exact hscan.idle.trans (by simp [Thread.idles])
  | ended => exact ⟨trivial, fun rest h => h, le_rfl, rfl, rfl⟩

theorem verdict_scan (check : T → Bool) (q : CCheckQueue T) {fMaster notify : Bool}
    (hstays : fMaster = true → (q.scan fMaster notify).ret = none) :
    ((q.scan fMaster notify).q.fAllOk && ((q.scan fMaster notify).q.queue.all check &&
      (q.scan fMaster notify).thread.ok check)) = (q.fAllOk && q.queue.all check) := by
  generalize hm : q.scan fMaster notify = m at hstays
  have hscan := scan_cases q fMaster notify
  rw [hm] at hscan
  cases hscan with
  | leave hqueue htodo =>
    cases fMaster with
    | true => exact absurd (hstays rfl) (by simp)
    | false => simp [Thread.ok]
  | wait hqueue htodo => simp [Thread.ok]
  | take hpos hle =>
    have hall : q.queue.all check =
        ((q.queue.drop q.nNow).all check && (q.queue.take q.nNow).all check) := by
      rw [Bool.and_comm, ← List.all_append, List.take_append_drop]
    rw [hall, Thread.ok]
    -- a failure that is known already stands for the checks that are not evaluated
    cases q.fAllOk <;> simp

/-- A step of a thread that is in `Loop`: it evaluates a check, or it scans the queue after it has
reported what it found. -/
inductive Stretch (check : T → Bool) (fMaster : Bool) (q : CCheckQueue T) : Thread T → Moved T → Prop
  | evaluate (c : T) (vChecks : List T) (fOk : Bool) (nNow : ℕ) :
      Stretch check fMaster q (.running (c :: vChecks) fOk nNow)
        ⟨q, .running vChecks (if fOk then check c else fOk) nNow, false, none⟩
  | scan {t : Thread T} {q' : CCheckQueue T} {notify : Bool} (hqueue : q'.queue = q.queue)
      (hok : q'.fAllOk = (q.fAllOk && t.ok check))
      (htells : q.nTodo ≠ 0 → notify = false → fMaster = false → q'.nTodo ≠ 0) :
      Stretch check fMaster q t (q'.scan fMaster notify)

theorem move_stretch (check : T → Bool) (fMaster : Bool) (q : CCheckQueue T) {t : Thread T}
    (hwf : t.Wf) (hended : t.isEnded = false) :
    Stretch check fMaster q t (move check fMaster q t) := by
  cases t with
  | running vChecks fOk nNow =>
    cases vChecks with
    | cons c vChecks => exact .evaluate c vChecks fOk nNow
    | nil =>
      by_cases hzero : nNow = 0
      · have hclean : q.cleanUp fOk nNow = { q with nTotal := q.nTotal + 1 } :=
          if_neg (not_not_intro hzero)
        rw [move, hclean]
        refine .scan rfl ?_ fun htodo _ _ => htodo
        rw [Thread.ok, hwf.2.2 hzero]
        simp
      · have hclean : q.cleanUp fOk nNow = { q with
            fAllOk := q.fAllOk && fOk, nTodo := (q.nTodo + 2 ^ 32 - nNow) % 2 ^ 32 } := if_pos hzero
        rw [move, hclean]
        refine .scan rfl ?_ fun _ hnotify hmaster htodo => ?_
        · rw [Thread.ok, List.all_nil, Bool.and_true]
        · rw [CCheckQueue.tellsMaster, htodo, hmaster, decide_eq_true hzero] at hnotify
          exact absurd hnotify (by decide)
  | waiting => exact .scan rfl (by simp [Thread.ok]) fun htodo _ _ => htodo
  | ended => exact Bool.noConfusion hended

theorem verdict_move (check : T → Bool) (q : CCheckQueue T) {fMaster : Bool} {t : Thread T}
    (hwf : t.Wf) (hended : t.isEnded = false)
    (hstays : fMaster = true → (move check fMaster q t).ret = none) :
    ((move check fMaster q t).q.fAllOk && ((move check fMaster q t).q.queue.all check &&
      (move check fMaster q t).thread.ok check)) =
      (q.fAllOk && (q.queue.all check && t.ok check)) := by
  generalize hm : move check fMaster q t = m at hstays
  have hstretch := move_stretch check fMaster q hwf hended
  rw [hm] at hstretch
  cases hstretch with
  | evaluate c vChecks fOk nNow =>
    rw [Thread.ok, Thread.ok, List.all_cons]
    cases fOk <;> simp
  | scan hqueue hok =>
    rw [verdict_scan check _ hstays, hqueue, hok, Bool.and_assoc, Bool.and_comm (t.ok check)]

theorem move_queue_nil (check : T → Bool) (fMaster : Bool) {q : CCheckQueue T} {t : Thread T}
    (hwf : t.Wf) (hended : t.isEnded = false) (hqueue : q.queue = []) :
    (move check fMaster q t).q.queue = [] := by
  have hstretch := move_stretch check fMaster q hwf hended
  generalize move check fMaster q t = m at hstretch
  cases hstretch with
  | evaluate => exact hqueue
  | @scan _ q' notify hqueue' =>
    rw [hqueue] at hqueue'
    have hcases := scan_cases q' fMaster notify
    generalize q'.scan fMaster notify = m at hcases
    cases hcases with
    | leave => exact hqueue'
    | wait => exact hqueue'
    | take =>
      show q'.queue.drop q'.nNow = []
      rw [hqueue', List.drop_nil]

theorem move_nTodo (check : T → Bool) {q : CCheckQueue T} {t : Thread T} (hwf : t.Wf)
    (hended : t.isEnded = false) (htodo : q.nTodo ≠ 0)
    (hnotify : (move check false q t).notify = false) : (move check false q t).q.nTodo ≠ 0 := by
  have hstretch := move_stretch check false q hwf hended
  generalize move check false q t = m at hstretch hnotify
  cases hstretch with
  | evaluate => exact htodo
  | @scan _ q' notify _ _ htells =>
    have hcases := scan_cases q' false notify
    generalize q'.scan false notify = m at hcases hnotify
    cases hcases with
    | leave => exact htells htodo hnotify rfl
    | wait => exact htells htodo hnotify rfl
    | take => exact htells htodo hnotify rfl

theorem move_waits (check : T → Bool) {q : CCheckQueue T} {t : Thread T} (hwf : t.Wf)
    (hended : t.isEnded = false) (h : (move check true q t).thread = .waiting) :
    (move check true q t).q.queue = [] ∧ (move check true q t).q.nTodo ≠ 0 := by
  have hstretch := move_stretch check true q hwf hended
  generalize move check true q t = m at hstretch h
  cases hstretch with
  | evaluate => exact absurd h (by simp)
  | @scan _ q' notify =>
    have hcases := scan_cases q' true notify
    generalize q'.scan true notify = m at hcases h
    cases hcases with
    | leave => exact absurd h (by simp)
    | wait hqueue htodo => exact ⟨hqueue, htodo rfl⟩
    | take => exact absurd h (by simp)

theorem move_isEnded (check : T → Bool) {fMaster : Bool} {q : CCheckQueue T} {t : Thread T}
    (hwf : t.Wf) (hended : t.isEnded = false) (hret : (move check fMaster q t).ret = none) :
    (move check fMaster q t).thread.isEnded = false := by
  have hstretch := move_stretch check fMaster q hwf hended
  generalize move check fMaster q t = m at hstretch hret
  cases hstretch with
  | evaluate => rfl
  | @scan _ q' notify =>
    have hcases := scan_cases q' fMaster notify
    generalize q'.scan fMaster notify = m at hcases hret
    cases hcases with
    | leave => exact absurd hret (by simp)
    | wait => rfl
    | take => rfl

/-- What the master finds when it leaves. -/
structure Leaves (check : T → Bool) (q : CCheckQueue T) (t : Thread T) (m : Moved T) (b : Bool) :
    Prop where
  queue : m.q.queue = []
  todo : m.q.nTodo = 0
  allOk : m.q.fAllOk = true
  thread : m.thread = .ended
  verdict : (q.fAllOk && (q.queue.all check && t.ok check)) = b

theorem move_leaves (check : T → Bool) {q : CCheckQueue T} {t : Thread T} {b : Bool} (hwf : t.Wf)
    (hended : t.isEnded = false) (hret : (move check true q t).ret = some b) :
    Leaves check q t (move check true q t) b := by
  have hstretch := move_stretch check true q hwf hended
  generalize move check true q t = m at hstretch hret
  cases hstretch with
  | evaluate => exact absurd hret (by simp)
  | @scan _ q' notify hqueue' hok =>
    have hcases := scan_cases q' true notify
    generalize q'.scan true notify = m at hcases hret
    cases hcases with
    | leave hqueue htodo =>
      refine ⟨hqueue, htodo, rfl, rfl, ?_⟩
      rw [← hqueue', hqueue, List.all_nil, Bool.true_and, ← hok]
      exact Option.some.inj hret
    | wait => exact absurd hret (by simp)
    | take => exact absurd hret (by simp)

def Thread.weight : Thread T → ℕ
  | running vChecks _ _ => vChecks.length + 2
  | _ => 0

theorem size_scan (q : CCheckQueue T) (fMaster notify : Bool) :
    4 * (q.scan fMaster notify).q.queue.length + (q.scan fMaster notify).thread.weight ≤
        4 * q.queue.length ∧ (q.scan fMaster notify).notify = notify := by
  have hcases := scan_cases q fMaster notify
  generalize q.scan fMaster notify = m at hcases
  cases hcases with
  | leave => exact ⟨le_rfl, rfl⟩
  | wait => exact ⟨le_rfl, rfl⟩
  | take hpos hle =>
    refine ⟨?_, rfl⟩
    show 4 * (q.queue.drop q.nNow).length + ((q.queue.take q.nNow).length + 2) ≤ _
    rw [List.length_drop, List.length_take_of_le hle]
    omega

theorem size_move (check : T → Bool) (fMaster : Bool) (q : CCheckQueue T) {t : Thread T}
    (hended : t.isEnded = false) :
    4 * (move check fMaster q t).q.queue.length + (move check fMaster q t).thread.weight +
        (move check fMaster q t).notify.toNat <
      4 * q.queue.length + t.weight + t.isWaiting.toNat := by
  cases t with
  | running vChecks fOk nNow =>
    cases vChecks with
    | cons c vChecks =>
      show 4 * q.queue.length + (vChecks.length + 2) + 0 <
        4 * q.queue.length + ((c :: vChecks).length + 2) + 0
      rw [List.length_cons]
      omega
    | nil =>
      obtain ⟨hle, hnotify⟩ := size_scan (q.cleanUp fOk nNow) fMaster
        ((q.cleanUp fOk nNow).tellsMaster fMaster nNow)
      have hqueue : (q.cleanUp fOk nNow).queue = q.queue := by
        unfold CCheckQueue.cleanUp
        split <;> rfl
      have hone := Bool.toNat_le ((q.cleanUp fOk nNow).tellsMaster fMaster nNow)
      rw [hqueue] at hle
      rw [move, hnotify]
      show _ < 4 * q.queue.length + (0 + 2) + 0
      omega
  | waiting =>
    obtain ⟨hle, hnotify⟩ := size_scan { q with nIdle := q.nIdle - 1 } fMaster false
    rw [move, hnotify]
    show _ < 4 * q.queue.length + 0 + 1
    exact Nat.lt_succ_of_le hle
  | ended => exact Bool.noConfusion hended

end CheckQueue

end Stonecoin
