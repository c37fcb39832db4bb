import Mathlib.Data.Fintype.Sum
import Mathlib.Tactic.DeriveFintype
import OpenAPT.Lib.EventMachine
import OpenAPT.Lib.Monitor
import OpenAPT.Lib.WorkQueue

/-! The thread pool: `n` workers, `m` threads that call `enqueue` and `wait`, and the thread that
runs the destructor, on one mutex and one condition variable. -/
namespace OpenAPT

/-- A task that calls `enqueue` or `wait` itself is one of the callers while it does. -/
inductive Thread (n m : ℕ)
  | worker (w : Fin n)
  | caller (c : Fin m)
  | destructor
  deriving DecidableEq, Fintype

/-- A worker outside its critical section. -/
inductive WorkerAt
  | holding (task : ℕ)
  | running (task : ℕ)
  | returned
  deriving DecidableEq

inductive WorkerSection
  | fetch
  deriving DecidableEq

inductive CallerAt
  | idle
  | notifying
  deriving DecidableEq

/-- A call of `wait` records how many tasks had been enqueued when it was made. -/
inductive CallerSection
  | push
  | wait (seen : ℕ)
  deriving DecidableEq

inductive DestructorAt
  | alive
  | notifying
  | joining (joined : ℕ)
  deriving DecidableEq

inductive DestructorSection
  | stop
  deriving DecidableEq

/-- Where a thread can stand outside the mutex. -/
abbrev Thread.At {n m : ℕ} : Thread n m → Type
  | worker _ => WorkerAt
  | caller _ => CallerAt
  | destructor => DestructorAt

/-- The critical sections of a thread. -/
abbrev Thread.Section {n m : ℕ} : Thread n m → Type
  | worker _ => WorkerSection
  | caller _ => CallerSection
  | destructor => DestructorSection

/-- The members of the pool with the histories of its tasks; a task is its number in the order in
which tasks are enqueued. -/
structure ThreadPool (n m : ℕ) extends Monitor (Thread n m) Thread.At Thread.Section where
  tasks_ : List ℕ
  stop_ : Bool
  enqueued : ℕ
  taken : List ℕ
  started : List (Fin n × ℕ)
  finished : List ℕ

namespace ThreadPool

variable {n m : ℕ}

/-- The constructor: every worker is about to lock the mutex. -/
def init (n m : ℕ) : ThreadPool n m where
  owner := none
  phase := fun
    | .worker _ => .locking WorkerSection.fetch
    | .caller _ => .outside CallerAt.idle
    | .destructor => .outside DestructorAt.alive
  tasks_ := []
  stop_ := false
  enqueued := 0
  taken := []
  started := []
  finished := []

/-- The block of the worker loop: `condition_.wait` with its predicate, the exit test, the pop. -/
def fetch (s : ThreadPool n m) (w : Fin n) : Option (ThreadPool n m) :=
  match s.phase (.worker w) with
  | .inside WorkerSection.fetch =>
    if s.stop_ || !s.tasks_.isEmpty then
      match s.tasks_ with
      | [] => some { s with
          toMonitor := s.release (.worker w) (.outside WorkerAt.returned) }
      | task :: rest => some { s with
          toMonitor := s.release (.worker w) (.outside (WorkerAt.holding task))
          tasks_ := rest
          taken := s.taken ++ [task] }
    else some { s with
      toMonitor := s.release (.worker w) (.parked WorkerSection.fetch) }
  | _ => none

/-- The worker calls `task()`. -/
def startTask (s : ThreadPool n m) (w : Fin n) : Option (ThreadPool n m) :=
  match s.phase (.worker w) with
  | .outside (WorkerAt.holding task) => some { s with
      toMonitor := s.goto (.worker w) (.outside (WorkerAt.running task))
      started := s.started ++ [(w, task)] }
  | _ => none

/-- `task()` returns, also when the task throws, and the worker loops. -/
def finishTask (s : ThreadPool n m) (w : Fin n) : Option (ThreadPool n m) :=
  match s.phase (.worker w) with
  | .outside (WorkerAt.running task) => some { s with
      toMonitor := s.goto (.worker w) (.locking WorkerSection.fetch)
      finished := s.finished ++ [task] }
  | _ => none

def enqueue (s : ThreadPool n m) (c : Fin m) : Option (ThreadPool n m) :=
  match s.phase (.caller c) with
  | .outside CallerAt.idle => some { s with
      toMonitor := s.goto (.caller c) (.locking CallerSection.push) }
  | _ => none

/-- The block of `enqueue`. -/
def push (s : ThreadPool n m) (c : Fin m) : Option (ThreadPool n m) :=
  match s.phase (.caller c) with
  | .inside CallerSection.push => some { s with
      toMonitor := s.release (.caller c) (.outside CallerAt.notifying)
      tasks_ := s.tasks_ ++ [s.enqueued]
      enqueued := s.enqueued + 1 }
  | _ => none

/-- The `condition_.notify_one()` of `enqueue`; `target` is the thread that it wakes. -/
def notifyOne (s : ThreadPool n m) (c : Fin m) (target : Option (Thread n m)) :
    Option (ThreadPool n m) :=
  match s.phase (.caller c) with
  | .outside CallerAt.notifying =>
    ((s.goto (.caller c) (.outside CallerAt.idle)).notifyOne? target).map fun mon =>
      { s with toMonitor := mon }
  | _ => none

def wait (s : ThreadPool n m) (c : Fin m) : Option (ThreadPool n m) :=
  match s.phase (.caller c) with
  | .outside CallerAt.idle => some { s with
      toMonitor := s.goto (.caller c) (.locking (CallerSection.wait s.enqueued)) }
  | _ => none

/-- The body of `wait`: `condition_.wait` with its predicate, after which it returns. -/
def checkEmpty (s : ThreadPool n m) (c : Fin m) : Option (ThreadPool n m) :=
  match s.phase (.caller c) with
  | .inside (CallerSection.wait seen) =>
    if s.tasks_.isEmpty then some { s with
      toMonitor := s.release (.caller c) (.outside CallerAt.idle) }
    else some { s with
      toMonitor := s.release (.caller c) (.parked (CallerSection.wait seen)) }
  | _ => none

def destroy (s : ThreadPool n m) : Option (ThreadPool n m) :=
  match s.phase .destructor with
  | .outside DestructorAt.alive => some { s with
      toMonitor := s.goto .destructor (.locking DestructorSection.stop) }
  | _ => none

/-- The block of the destructor. -/
def setStop (s : ThreadPool n m) : Option (ThreadPool n m) :=
  match s.phase .destructor with
  | .inside DestructorSection.stop => some { s with
      toMonitor := s.release .destructor (.outside DestructorAt.notifying)
      stop_ := true }
  | _ => none

def notifyAllThreads (s : ThreadPool n m) : Option (ThreadPool n m) :=
  match s.phase .destructor with
  | .outside DestructorAt.notifying => some { s with
      toMonitor := s.notifyAll.goto .destructor (.outside (DestructorAt.joining 0)) }
  | _ => none

/-- One turn of the loop that joins the workers, in their order. -/
def join (s : ThreadPool n m) : Option (ThreadPool n m) :=
  match s.phase .destructor with
  | .outside (DestructorAt.joining joined) =>
    if h : joined < n then
      match s.phase (.worker ⟨joined, h⟩) with
      | .outside WorkerAt.returned => some { s with
          toMonitor := s.goto .destructor (.outside (DestructorAt.joining (joined + 1))) }
      | _ => none
    else none
  | _ => none

inductive Event (n m : ℕ)
  | lock (t : Thread n m)
  | spurious (t : Thread n m)
  | fetch (w : Fin n)
  | startTask (w : Fin n)
  | finishTask (w : Fin n)
  | enqueue (c : Fin m)
  | push (c : Fin m)
  | notifyOne (c : Fin m) (target : Option (Thread n m))
  | wait (c : Fin m)
  | checkEmpty (c : Fin m)
  | destroy
  | setStop
  | notifyAll
  | join

/-- One step of one thread. What a thread does inside the mutex is one step. -/
def step (s : ThreadPool n m) : Event n m → Option (ThreadPool n m)
  | .lock t => (s.lock? t).map fun mon => { s with toMonitor := mon }
  | .spurious t => (s.wake? t).map fun mon => { s with toMonitor := mon }
  | .fetch w => s.fetch w
  | .startTask w => s.startTask w
  | .finishTask w => s.finishTask w
  | .enqueue c => s.enqueue c
  | .push c => s.push c
  | .notifyOne c target => s.notifyOne c target
  | .wait c => s.wait c
  | .checkEmpty c => s.checkEmpty c
  | .destroy => s.destroy
  | .setStop => s.setStop
  | .notifyAll => s.notifyAllThreads
  | .join => s.join

/-- What each step asks of the state and what it changes. -/
inductive StepsTo (s : ThreadPool n m) : Event n m → ThreadPool n m → Prop
  | lock {t : Thread n m} {i : t.Section} (hfree : s.owner = none)
      (ht : s.phase t = .locking i ∨ s.phase t = .woken i) :
      StepsTo s (.lock t) { s with
        owner := some t
        phase := Function.update s.phase t (.inside i) }
  | spurious {t : Thread n m} {i : t.Section} (ht : s.phase t = .parked i) :
      StepsTo s (.spurious t) { s with toMonitor := s.goto t (.woken i) }
  | returns {w : Fin n} (hw : s.phase (.worker w) = .inside WorkerSection.fetch)
      (hstop : s.stop_ = true) (htasks : s.tasks_ = []) :
      StepsTo s (.fetch w) { s with
        toMonitor := s.release (.worker w) (.outside WorkerAt.returned) }
  | parks {w : Fin n} (hw : s.phase (.worker w) = .inside WorkerSection.fetch)
      (hstop : s.stop_ = false) (htasks : s.tasks_ = []) :
      StepsTo s (.fetch w) { s with
        toMonitor := s.release (.worker w) (.parked WorkerSection.fetch) }
  | takes {w : Fin n} {task : ℕ} {rest : List ℕ}
      (hw : s.phase (.worker w) = .inside WorkerSection.fetch) (htasks : s.tasks_ = task :: rest) :
      StepsTo s (.fetch w) { s with
        toMonitor := s.release (.worker w) (.outside (WorkerAt.holding task))
        tasks_ := rest
        taken := s.taken ++ [task] }
  | startTask {w : Fin n} {task : ℕ}
      (hw : s.phase (.worker w) = .outside (WorkerAt.holding task)) :
      StepsTo s (.startTask w) { s with
        toMonitor := s.goto (.worker w) (.outside (WorkerAt.running task))
        started := s.started ++ [(w, task)] }
  | finishTask {w : Fin n} {task : ℕ}
      (hw : s.phase (.worker w) = .outside (WorkerAt.running task)) :
      StepsTo s (.finishTask w) { s with
        toMonitor := s.goto (.worker w) (.locking WorkerSection.fetch)
        finished := s.finished ++ [task] }
  | enqueue {c : Fin m} (hc : s.phase (.caller c) = .outside CallerAt.idle) :
      StepsTo s (.enqueue c) { s with
        toMonitor := s.goto (.caller c) (.locking CallerSection.push) }
  | push {c : Fin m} (hc : s.phase (.caller c) = .inside CallerSection.push) :
      StepsTo s (.push c) { s with
        toMonitor := s.release (.caller c) (.outside CallerAt.notifying)
        tasks_ := s.tasks_ ++ [s.enqueued]
        enqueued := s.enqueued + 1 }
  | notifyOne {c : Fin m} {target : Option (Thread n m)}
      {mon : Monitor (Thread n m) Thread.At Thread.Section}
      (hc : s.phase (.caller c) = .outside CallerAt.notifying)
      (hmon : (s.goto (.caller c) (.outside CallerAt.idle)).notifyOne? target = some mon) :
      StepsTo s (.notifyOne c target) { s with toMonitor := mon }
  | wait {c : Fin m} (hc : s.phase (.caller c) = .outside CallerAt.idle) :
      StepsTo s (.wait c) { s with
        toMonitor := s.goto (.caller c) (.locking (CallerSection.wait s.enqueued)) }
  | waitReturns {c : Fin m} {seen : ℕ}
      (hc : s.phase (.caller c) = .inside (CallerSection.wait seen)) (htasks : s.tasks_ = []) :
      StepsTo s (.checkEmpty c) { s with
        toMonitor := s.release (.caller c) (.outside CallerAt.idle) }
  | waitParks {c : Fin m} {seen : ℕ}
      (hc : s.phase (.caller c) = .inside (CallerSection.wait seen)) (htasks : s.tasks_ ≠ []) :
      StepsTo s (.checkEmpty c) { s with
        toMonitor := s.release (.caller c) (.parked (CallerSection.wait seen)) }
  | destroy (hd : s.phase .destructor = .outside DestructorAt.alive) :
      StepsTo s .destroy { s with
        toMonitor := s.goto .destructor (.locking DestructorSection.stop) }
  | setStop (hd : s.phase .destructor = .inside DestructorSection.stop) :
      StepsTo s .setStop { s with
        toMonitor := s.release .destructor (.outside DestructorAt.notifying)
        stop_ := true }
  | notifyAll (hd : s.phase .destructor = .outside DestructorAt.notifying) :
      StepsTo s .notifyAll { s with
        toMonitor := s.notifyAll.goto .destructor (.outside (DestructorAt.joining 0)) }
  | join {joined : ℕ} (h : joined < n)
      (hd : s.phase .destructor = .outside (DestructorAt.joining joined))
      (hw : s.phase (.worker ⟨joined, h⟩) = .outside WorkerAt.returned) :
      StepsTo s .join { s with
        toMonitor := s.goto .destructor (.outside (DestructorAt.joining (joined + 1))) }

theorem fetch_cases {s s' : ThreadPool n m} {w : Fin n} (h : s.fetch w = some s') :
    StepsTo s (.fetch w) s' := by
  unfold fetch at h
  split at h
  next hw =>
    split at h
    next hready =>
      split at h
      next htasks =>
        obtain rfl := Option.some.inj h
        have hstop : s.stop_ = true := by simpa only [htasks, List.isEmpty_nil, Bool.not_true,
          Bool.or_false] using hready
        exact .returns hw hstop htasks
      next task rest htasks =>
        obtain rfl := Option.some.inj h
        exact .takes hw htasks
    next hready =>
      obtain rfl := Option.some.inj h
      simp only [Bool.or_eq_true, Bool.not_eq_true', not_or, Bool.not_eq_true,
        Bool.not_eq_false, List.isEmpty_iff] at hready
      exact .parks hw hready.1 hready.2
  next => cases h

theorem checkEmpty_cases {s s' : ThreadPool n m} {c : Fin m} (h : s.checkEmpty c = some s') :
    StepsTo s (.checkEmpty c) s' := by
  unfold checkEmpty at h
  split at h
  next seen hc =>
    split at h
    next htasks =>
      obtain rfl := Option.some.inj h
      exact .waitReturns hc (List.isEmpty_iff.mp htasks)
    next htasks =>
      obtain rfl := Option.some.inj h
      exact .waitParks hc fun hnil => htasks (List.isEmpty_iff.mpr hnil)
  next => cases h

theorem join_cases {s s' : ThreadPool n m} (h : s.join = some s') : StepsTo s .join s' := by
  unfold join at h
  split at h
  next joined hd =>
    split at h
    next hjoined =>
      split at h
      next hw =>
        obtain rfl := Option.some.inj h
        exact .join hjoined hd hw
      next => cases h
    next => cases h
  next => cases h

theorem step_cases {s s' : ThreadPool n m} {a : Event n m} (h : s.step a = some s') :
    StepsTo s a s' := by
  cases a with
  | fetch w => exact fetch_cases h
  | checkEmpty c => exact checkEmpty_cases h
  | join => exact join_cases h
  | lock t =>
    obtain ⟨mon, hmon, rfl⟩ := Option.map_eq_some_iff.mp h
    obtain ⟨i, hfree, ht, rfl⟩ := Monitor.lock?_eq_some hmon
    exact .lock hfree ht
  | spurious t =>
    obtain ⟨mon, hmon, rfl⟩ := Option.map_eq_some_iff.mp h
    obtain ⟨i, ht, rfl⟩ := Monitor.wake?_eq_some hmon
    exact .spurious ht
  | notifyOne c target =>
    simp only [step, notifyOne] at h
    split at h
    next hc =>
      obtain ⟨mon, hmon, rfl⟩ := Option.map_eq_some_iff.mp h
      exact .notifyOne hc hmon
    next => cases h
  | startTask w =>
    simp only [step, startTask] at h
    split at h
    next task hw =>
      obtain rfl := Option.some.inj h
      exact .startTask hw
    next => cases h
  | finishTask w =>
    simp only [step, finishTask] at h
    split at h
    next task hw =>
      obtain rfl := Option.some.inj h
      exact .finishTask hw
    next => cases h
  | enqueue c =>
    simp only [step, enqueue] at h
    split at h
    next hc =>
      obtain rfl := Option.some.inj h
      exact .enqueue hc
    next => cases h
  | push c =>
    simp only [step, push] at h
    split at h
    next hc =>
      obtain rfl := Option.some.inj h
      exact .push hc
    next => cases h
  | wait c =>
    simp only [step, wait] at h
    split at h
    next hc =>
      obtain rfl := Option.some.inj h
      exact .wait hc
    next => cases h
  | destroy =>
    simp only [step, destroy] at h
    split at h
    next hd =>
      obtain rfl := Option.some.inj h
      exact .destroy hd
    next => cases h
  | setStop =>
    simp only [step, setStop] at h
    split at h
    next hd =>
      obtain rfl := Option.some.inj h
      exact .setStop hd
    next => cases h
  | notifyAll =>
    simp only [step, notifyAllThreads] at h
    split at h
    next hd =>
      obtain rfl := Option.some.inj h
      exact .notifyAll hd
    next => cases h

/-- The thread that takes the step. -/
def Event.thread : Event n m → Thread n m
  | lock t | spurious t => t
  | fetch w | startTask w | finishTask w => .worker w
  | enqueue c | push c | notifyOne c _ | wait c | checkEmpty c => .caller c
  | destroy | setStop | notifyAll | join => .destructor

/-- The steps of the other threads leave a thread where it is, or wake it. -/
theorem phase_of_ne {s s' : ThreadPool n m} {a : Event n m} (h : StepsTo s a s')
    {u : Thread n m} (hu : u ≠ a.thread) :
    s'.phase u = s.phase u ∨ s'.phase u = (s.phase u).wake := by
  cases h with
  | @notifyOne c _ _ hc hmon =>
    have hgoto : (s.goto (.caller c) (.outside CallerAt.idle)).phase u = s.phase u :=
      Function.update_of_ne hu _ _
    rw [← hgoto]
    exact Monitor.notifyOne?_phase hmon u
  | notifyAll hd => exact .inr (Function.update_of_ne hu _ _)
  | _ => exact .inl (Function.update_of_ne hu _ _)

theorem outside_of_ne {s s' : ThreadPool n m} {a : Event n m} (h : StepsTo s a s')
    {u : Thread n m} (hu : u ≠ a.thread) {o : u.At} :
    s'.phase u = .outside o ↔ s.phase u = .outside o := by
  rcases phase_of_ne h hu with hphase | hphase
  · rw [hphase]
  · rw [hphase, Phase.wake_eq_outside]

theorem section?_of_ne {s s' : ThreadPool n m} {a : Event n m} (h : StepsTo s a s')
    {u : Thread n m} (hu : u ≠ a.thread) : (s'.phase u).section? = (s.phase u).section? := by
  rcases phase_of_ne h hu with hphase | hphase
  · rw [hphase]
  · rw [hphase, Phase.section?_wake]

theorem parked_of_ne {s s' : ThreadPool n m} {a : Event n m} (h : StepsTo s a s')
    {u : Thread n m} (hu : u ≠ a.thread) (hparked : (s'.phase u).Parked) :
    (s.phase u).Parked := by
  rcases phase_of_ne h hu with hphase | hphase
  · rwa [← hphase]
  · rw [hphase] at hparked
    exact absurd hparked (Phase.not_parked_wake _)

/-- After its notification the notifier is idle, whomever it woke. -/
theorem notifier_idle {s : ThreadPool n m} {c : Fin m} {target : Option (Thread n m)}
    {mon : Monitor (Thread n m) Thread.At Thread.Section}
    (hmon : (s.goto (.caller c) (.outside CallerAt.idle)).notifyOne? target = some mon) :
    mon.phase (.caller c) = .outside CallerAt.idle := by
  have hidle : (s.goto (.caller c) (.outside CallerAt.idle)).phase (.caller c) =
      .outside CallerAt.idle := Function.update_self _ _ _
  rcases Monitor.notifyOne?_phase hmon (.caller c) with hphase | hphase
  · rw [hphase, hidle]
  · rw [hphase, hidle, Phase.wake_eq_outside]

theorem exclusive_init : (init n m).Exclusive := by
  intro t
  cases t <;> exact iff_of_false nofun nofun

theorem exclusive_step {s s' : ThreadPool n m} {a : Event n m} (hs : s.Exclusive)
    (h : StepsTo s a s') : s'.Exclusive := by
  have leave {t : Thread n m} {i : t.Section} {ph : Phase t.At t.Section}
      (ht : s.phase t = .inside i) (hph : ¬ ph.Inside) : (s.release t ph).Exclusive :=
    hs.release ⟨i, ht⟩ hph
  have move {t : Thread n m} {o : t.At} {ph : Phase t.At t.Section}
      (ht : s.phase t = .outside o) (hph : ¬ ph.Inside) : (s.goto t ph).Exclusive :=
    hs.goto (by rw [ht]; exact Phase.not_inside_outside o) hph
  cases h with
  | lock hfree ht => exact hs.lock hfree _
  | spurious ht => exact hs.wake ht
  | returns ht hstop htasks => exact leave ht (Phase.not_inside_outside _)
  | parks ht hstop htasks => exact leave ht (Phase.not_inside_parked _)
  | takes ht htasks => exact leave ht (Phase.not_inside_outside _)
  | startTask ht => exact move ht (Phase.not_inside_outside _)
  | finishTask ht => exact move ht (Phase.not_inside_locking _)
  | enqueue ht => exact move ht (Phase.not_inside_locking _)
  | push ht => exact leave ht (Phase.not_inside_outside _)
  | notifyOne ht hmon => exact (move ht (Phase.not_inside_outside _)).notifyOne? hmon
  | wait ht => exact move ht (Phase.not_inside_locking _)
  | waitReturns ht htasks => exact leave ht (Phase.not_inside_outside _)
  | waitParks ht htasks => exact leave ht (Phase.not_inside_parked _)
  | destroy ht => exact move ht (Phase.not_inside_locking _)
  | setStop ht => exact leave ht (Phase.not_inside_outside _)
  | notifyAll ht =>
    refine hs.notifyAll.goto ?_ (Phase.not_inside_outside _)
    simp only [Monitor.notifyAll, Phase.inside_wake, ht]
    exact Phase.not_inside_outside _
  | join hjoined ht hw => exact move ht (Phase.not_inside_outside _)

/-- No two threads are inside their critical sections at once. -/
theorem exclusive_of_reachable {s : ThreadPool n m}
    (h : EventMachine.Reachable step (init n m) s) : s.Exclusive :=
  EventMachine.reachable_invariant (I := fun s => s.Exclusive) exclusive_init
    (fun _ _ _ hs ht => exclusive_step hs (step_cases ht)) h

end ThreadPool

end OpenAPT
