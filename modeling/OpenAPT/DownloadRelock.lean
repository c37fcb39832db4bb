import OpenAPT.DownloadWorkers

/-! A call of `get_next_task` on its own, with any contents of the list and of the queue. -/
namespace OpenAPT
open EventMachine

namespace DownloadWorkers

variable {n : ℕ}

/-- Workers that start on a list and a queue. -/
def start (n : ℕ) (tasks queue : List DownloadTask) : DownloadWorkers n :=
  { init n tasks with task_queue_ := queue }

/-- The worker is about to lock the mutex that it holds. -/
def LocksTwice (s : DownloadWorkers n) (w : Fin n) : Prop :=
  s.worker w = .relocking ∧ s.mutex_ = some w

/-- The worker is back from `get_next_task`, with a task or with none. -/
def Returned (s : DownloadWorkers n) (w : Fin n) : Prop :=
  s.worker w = .finished ∨ ∃ i task, s.worker w = .holding i task

/-- Neither in `get_next_task` nor in `get_next_task_index`. -/
def Outside (at_ : DownloadWorker) : Prop := at_ ≠ .inside ∧ at_ ≠ .relocking

/-- Whoever is in one of the two functions has the mutex. -/
def Exclusive (s : DownloadWorkers n) : Prop :=
  ∀ v, s.worker v = .inside ∨ s.worker v = .relocking → s.mutex_ = some v

theorem outside_looping : Outside .looping := by
  constructor
  · decide
  · decide

theorem outside_downloading (i : Option ℕ) (task : DownloadTask) (body : ℕ) :
    Outside (.downloading i task body) :=
  ⟨by simp only [ne_eq, reduceCtorEq, not_false_eq_true],
    by simp only [ne_eq, reduceCtorEq, not_false_eq_true]⟩

theorem outside_holding (i : Option ℕ) (task : DownloadTask) : Outside (.holding i task) :=
  ⟨by simp only [ne_eq, reduceCtorEq, not_false_eq_true],
    by simp only [ne_eq, reduceCtorEq, not_false_eq_true]⟩

variable {s t : DownloadWorkers n} {a : Event n} {w : Fin n}

@[simp] theorem worker_move (s : DownloadWorkers n) (w : Fin n) (at_ : DownloadWorker) (v : Fin n) :
    (s.move w at_).worker v = if v = w then at_ else s.worker v :=
  Function.update_apply s.worker w at_ v

/-- What a step can do while no mutex is locked twice. -/
theorem step_cases (h : step false s a = some t) :
    (∃ u, a = .lock u ∧ s.worker u = .looping ∧ s.mutex_ = none ∧
      t = { s.move u .inside with mutex_ := some u }) ∨
    (∃ u task rest, a = .next u ∧ s.worker u = .inside ∧ s.task_queue_ = task :: rest ∧
      t = { s.move u (.holding none task) with mutex_ := none, task_queue_ := rest }) ∨
    (∃ u, a = .next u ∧ s.worker u = .inside ∧ s.task_queue_ = [] ∧ t = s.move u .relocking) ∨
    (∃ u at_, Outside (s.worker u) ∧ Outside at_ ∧ t.worker = (s.move u at_).worker ∧
      t.mutex_ = s.mutex_ ∧ t.task_queue_ = s.task_queue_) := by
  cases stepped_of_step h with
  | lock hworker hfree => exact Or.inl ⟨_, rfl, hworker, hfree, rfl⟩
  | pops hworker hqueue => exact Or.inr (Or.inl ⟨_, _, _, rfl, hworker, hqueue, rfl⟩)
  | searches hworker hqueue => exact Or.inr (Or.inr (Or.inl ⟨_, rfl, hworker, hqueue, rfl⟩))
  | hands _ hrelocks | ends _ hrelocks => cases hrelocks
  | skips hworker _ =>
    have hout := hworker ▸ outside_holding _ _
    exact Or.inr (Or.inr (Or.inr ⟨_, _, hout, outside_looping, rfl, rfl, rfl⟩))
  | starts hworker _ =>
    have hout := hworker ▸ outside_holding _ _
    exact Or.inr (Or.inr (Or.inr ⟨_, _, hout, outside_downloading _ _ _, rfl, rfl, rfl⟩))
  | write hworker _ =>
    have hout := hworker ▸ outside_downloading _ _ _
    exact Or.inr (Or.inr (Or.inr ⟨_, _, hout, outside_downloading _ _ _, rfl, rfl, rfl⟩))
  | close hworker _ =>
    have hout := hworker ▸ outside_downloading _ _ _
    exact Or.inr (Or.inr (Or.inr ⟨_, _, hout, outside_looping, rfl, rfl, rfl⟩))

theorem exclusive_step (hs : Exclusive s) (h : step false s a = some t) : Exclusive t := by
  intro v hv
  rcases step_cases h with ⟨u, -, -, hfree, rfl⟩ | ⟨u, task, rest, -, hu, -, rfl⟩ |
    ⟨u, -, hu, -, rfl⟩ | ⟨u, at_, -, hat, hworker, hmutex, -⟩
  · -- whoever else is inside would hold the mutex that was free
    by_cases hvu : v = u
    · rw [hvu]
    · simp only [worker_move, hvu, ↓reduceIte] at hv
      exact absurd (hs v hv) (by rw [hfree]; exact Option.some_ne_none v |>.symm)
  · by_cases hvu : v = u
    · simp only [worker_move, hvu, ↓reduceIte, reduceCtorEq, or_self] at hv
    · simp only [worker_move, hvu, ↓reduceIte] at hv
      have huv := (hs u (Or.inl hu)).symm.trans (hs v hv)
      exact absurd (Option.some.inj huv).symm hvu
  · by_cases hvu : v = u
    · rw [hvu]
      exact hs u (Or.inl hu)
    · simp only [worker_move, hvu, ↓reduceIte] at hv
      exact hs v hv
  · rw [hmutex]
    by_cases hvu : v = u
    · rw [hworker, worker_move, if_pos hvu] at hv
      exact (hv.elim hat.1 hat.2).elim
    · rw [hworker, worker_move, if_neg hvu] at hv
      exact hs v hv

theorem exclusive_of_reachable {tasks queue : List DownloadTask}
    (h : Reachable (step false) (start n tasks queue) s) : Exclusive s := by
  apply reachable_invariant _ (fun _ _ _ => exclusive_step) h
  intro v hv
  rcases hv with hv | hv <;> cases hv

/-- From there the worker does not get away, and nobody else gets the mutex. -/
theorem locksTwice_step (hs : Exclusive s) (hw : LocksTwice s w) (h : step false s a = some t) :
    LocksTwice t w := by
  obtain ⟨hworker, hmutex⟩ := hw
  have hne : ∀ u, s.worker u ≠ .relocking → w ≠ u := fun u hu hwu => hu (hwu ▸ hworker)
  have hbusy : ∀ u, s.worker u = .inside → w = u := fun u hu =>
    Option.some.inj (hmutex.symm.trans (hs u (Or.inl hu)))
  rcases step_cases h with ⟨u, -, hu, hfree, rfl⟩ | ⟨u, task, rest, -, hu, -, rfl⟩ |
    ⟨u, -, hu, -, rfl⟩ | ⟨u, at_, hu, -, htworker, htmutex, -⟩
  · rw [hfree] at hmutex
    cases hmutex
  · exact absurd (hbusy u hu) (hne u (by rw [hu]; decide))
  · exact absurd (hbusy u hu) (hne u (by rw [hu]; decide))
  · refine ⟨?_, htmutex.trans hmutex⟩
    rw [htworker, worker_move, if_neg (hne u hu.2)]
    exact hworker

theorem locksTwice_run {as : List (Event n)} (hs : Exclusive s) (hw : LocksTwice s w)
    (h : run (step false) s as = some t) : LocksTwice t w := by
  have hboth : Exclusive t ∧ LocksTwice t w :=
    run_invariant_of_steps (I := fun s => Exclusive s ∧ LocksTwice s w) (G := fun _ _ => True)
      (fun _ _ _ hI _ hstep => ⟨exclusive_step hI.1 hstep, locksTwice_step hI.1 hI.2 hstep⟩)
      ⟨hs, hw⟩ (steps_of_forall (fun _ _ => trivial) s as) h
  exact hboth.2

/-- Between the lock of a call and its end: the worker is still before the test of the queue, or
it is out of `get_next_task`. -/
def Passing (s : DownloadWorkers n) (w : Fin n) : Prop :=
  s.worker w = .inside ∧ s.task_queue_ ≠ [] ∨ Outside (s.worker w)

theorem passing_step (hs : Exclusive s) (hw : Passing s w) (ha : a ≠ .lock w)
    (h : step false s a = some t) : Passing t w := by
  rcases step_cases h with ⟨u, rfl, -, hfree, rfl⟩ | ⟨u, task, rest, -, hu, hqueue, rfl⟩ |
    ⟨u, -, hu, hqueue, rfl⟩ | ⟨u, at_, hu, hat, hworker, -, hqueue⟩
  · have hwu : w ≠ u := fun hwu => ha (congrArg Event.lock hwu.symm)
    simp only [Passing, worker_move, hwu, ↓reduceIte]
    exact hw
  · by_cases hwu : w = u
    · right
      simp only [worker_move, hwu, ↓reduceIte]
      exact outside_holding none task
    · rcases hw with ⟨hinside, -⟩ | hw
      · have heq := (hs u (Or.inl hu)).symm.trans (hs w (Or.inl hinside))
        exact absurd (Option.some.inj heq).symm hwu
      · right
        simp only [worker_move, hwu, ↓reduceIte]
        exact hw
  · by_cases hwu : w = u
    · subst hwu
      rcases hw with ⟨-, hne⟩ | hw
      · exact absurd hqueue hne
      · exact absurd hu hw.1
    · simp only [Passing, worker_move, hwu, ↓reduceIte]
      exact hw
  · by_cases hwu : w = u
    · right
      rw [hworker, worker_move, if_pos hwu]
      exact hat
    · rw [Passing, hworker, worker_move, if_neg hwu, hqueue]
      exact hw

/-- The worker has the mutex and is before the test of the queue. -/
def entered (s : DownloadWorkers n) (w : Fin n) : DownloadWorkers n :=
  { s.move w .inside with mutex_ := some w }

theorem step_lock (hworker : s.worker w = .looping) (hfree : s.mutex_ = none) :
    step false s (.lock w) = some (s.entered w) := by
  simp only [step, lock, hworker, hfree, entered]

theorem step_next_cons {task : DownloadTask} {rest : List DownloadTask}
    (hinside : s.worker w = .inside) (hqueue : s.task_queue_ = task :: rest) :
    step false s (.next w) =
      some { s.move w (.holding none task) with mutex_ := none, task_queue_ := rest } := by
  simp only [step, next, hinside, hqueue]

theorem step_next_nil (hinside : s.worker w = .inside) (hqueue : s.task_queue_ = []) :
    step false s (.next w) = some (s.move w .relocking) := by
  simp only [step, next, hinside, hqueue]

theorem next_ne_lock : ∀ a ∈ [Event.next w], a ≠ .lock w := by
  intro a ha heq
  rw [List.mem_singleton.mp ha] at heq
  cases heq

/-- What the call of `get_next_task` by `w` should be: whatever the other workers do, it never
locks the mutex twice before it returns, and it can return. -/
structure CallReturns (s : DownloadWorkers n) (w : Fin n) : Prop where
  never_twice : ∀ as t, (∀ a ∈ as, a ≠ .lock w) →
    run (step false) s (.lock w :: as) = some t → ¬ LocksTwice t w
  returns : ∃ as t, (∀ a ∈ as, a ≠ .lock w) ∧
    run (step false) s (.lock w :: as) = some t ∧ Returned t w

/-- A call returns exactly when it finds a task in the queue, which the class never fills. -/
theorem callReturns_iff {tasks queue : List DownloadTask}
    (hs : Reachable (step false) (start n tasks queue) s) (hworker : s.worker w = .looping)
    (hfree : s.mutex_ = none) : CallReturns s w ↔ s.task_queue_ ≠ [] := by
  have hexclusive := exclusive_of_reachable hs
  have hlock := step_lock hworker hfree
  have hinside : (s.entered w).worker w = .inside := Function.update_self ..
  constructor
  · intro h hqueue
    have hrun : run (step false) s [.lock w, .next w] = some ((s.entered w).move w .relocking) := by
      rw [run, hlock, Option.bind_some, run, step_next_nil hinside hqueue, Option.bind_some, run]
    exact h.never_twice [.next w] _ next_ne_lock hrun ⟨Function.update_self .., rfl⟩
  · intro hqueue
    constructor
    · intro as t has hrun htwice
      obtain ⟨u, hu, hrun⟩ := (run_cons_eq_some (step false)).mp hrun
      obtain rfl := Option.some.inj (hlock.symm.trans hu)
      have hI : Exclusive t ∧ Passing t w :=
        run_invariant_of_steps (I := fun s => Exclusive s ∧ Passing s w)
          (G := fun _ a => a ≠ .lock w)
          (fun _ _ _ hI ha hstep =>
            ⟨exclusive_step hI.1 hstep, passing_step hI.1 hI.2 ha hstep⟩)
          ⟨exclusive_step hexclusive hlock, Or.inl ⟨hinside, hqueue⟩⟩
          (steps_of_forall_mem has _) hrun
      rcases hI.2 with ⟨ht, -⟩ | ht
      · exact absurd (ht.symm.trans htwice.1) (by decide)
      · exact ht.2 htwice.1
    · obtain ⟨task, rest, hcons⟩ := List.exists_cons_of_ne_nil hqueue
      have hrun : run (step false) s [.lock w, .next w] = some { (s.entered w).move w
          (.holding none task) with mutex_ := none, task_queue_ := rest } := by
        rw [run, hlock, Option.bind_some, run, step_next_cons hinside hcons, Option.bind_some, run]
      exact ⟨[.next w], _, next_ne_lock, hrun, Or.inr ⟨none, task, Function.update_self ..⟩⟩

/-- The only call of a manager with one task to do. -/
theorem callReturns_iff_one_task :
    CallReturns (start 1 [.pending (bytes "http://a/b") (bytes "b") 0] []) 0 ↔
      (start 1 [.pending (bytes "http://a/b") (bytes "b") 0] []).task_queue_ ≠ [] :=
  callReturns_iff ⟨[], rfl⟩ rfl rfl

theorem not_callReturns :
    ¬ ∀ (n : ℕ) (tasks queue : List DownloadTask) (s : DownloadWorkers n) (w : Fin n),
      Reachable (step false) (start n tasks queue) s → s.worker w = .looping → s.mutex_ = none →
        CallReturns s w := by
  intro h
  have hcall := h 1 [.pending (bytes "http://a/b") (bytes "b") 0] [] (start 1 _ []) 0 ⟨[], rfl⟩
    rfl rfl
  exact hcall.never_twice [.next 0] _ next_ne_lock rfl ⟨rfl, rfl⟩

end DownloadWorkers

end OpenAPT
