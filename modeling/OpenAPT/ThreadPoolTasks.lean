import OpenAPT.ThreadPool

/-! What becomes of the tasks of the thread pool: it refines the work queue, so every task is
started at most once and finished before the destructor returns. -/
namespace OpenAPT.ThreadPool

open EventMachine

variable {n m : ℕ} {s t : ThreadPool n m} {a : Event n m}

/-- What a worker does with the queue, wherever it stands with respect to the mutex. -/
def stageOf : Phase WorkerAt WorkerSection → Stage
  | .outside (.holding task) => .holding task
  | .outside (.running task) => .running task
  | .outside .returned => .gone
  | _ => .free

theorem stageOf_of_section {ph : Phase WorkerAt WorkerSection} {i : WorkerSection}
    (h : ph.section? = some i) : stageOf ph = .free := by
  cases ph with
  | outside o => cases h
  | locking i | inside i | parked i | woken i => rfl

theorem stageOf_wake (ph : Phase WorkerAt WorkerSection) : stageOf ph.wake = stageOf ph := by
  cases ph <;> rfl

def stages (phase : ∀ t : Thread n m, Phase t.At t.Section) (w : Fin n) : Stage :=
  stageOf (phase (.worker w))

theorem stages_of_inside {phase : ∀ t : Thread n m, Phase t.At t.Section} {w : Fin n}
    {i : WorkerSection} (h : phase (.worker w) = .inside i) : stages phase w = .free :=
  stageOf_of_section (by rw [h, Phase.section?_inside])

theorem stages_update_worker (phase : ∀ t : Thread n m, Phase t.At t.Section) (w : Fin n)
    (ph : Phase WorkerAt WorkerSection) :
    stages (Function.update phase (.worker w) ph) =
      Function.update (stages phase) w (stageOf ph) := by
  funext v
  by_cases hvw : v = w
  · subst hvw
    simp only [stages, Function.update_self]
  · have hne : (Thread.worker v : Thread n m) ≠ .worker w := fun h => hvw (Thread.worker.inj h)
    simp only [stages, Function.update_of_ne hvw, Function.update_of_ne hne]

theorem stages_update_caller (phase : ∀ t : Thread n m, Phase t.At t.Section) (c : Fin m)
    (ph : Phase CallerAt CallerSection) :
    stages (Function.update phase (.caller c) ph) = stages phase := by
  funext v
  have hne : (Thread.worker v : Thread n m) ≠ .caller c := nofun
  simp only [stages, Function.update_of_ne hne]

theorem stages_update_destructor (phase : ∀ t : Thread n m, Phase t.At t.Section)
    (ph : Phase DestructorAt DestructorSection) :
    stages (Function.update phase .destructor ph) = stages phase := by
  funext v
  have hne : (Thread.worker v : Thread n m) ≠ .destructor := nofun
  simp only [stages, Function.update_of_ne hne]

/-- A thread that stays at its critical section leaves all stages as they are. -/
theorem stages_update_section (phase : ∀ t : Thread n m, Phase t.At t.Section) {t : Thread n m}
    {ph : Phase t.At t.Section} {i j : t.Section} (hold : (phase t).section? = some i)
    (hnew : ph.section? = some j) : stages (Function.update phase t ph) = stages phase := by
  cases t with
  | worker w =>
    rw [stages_update_worker, stageOf_of_section hnew, ← stageOf_of_section hold]
    exact Function.update_eq_self w (stages phase)
  | caller c => exact stages_update_caller phase c ph
  | destructor => exact stages_update_destructor phase ph

/-- The pool as a queue with workers: mutex, condition variable and callers are forgotten. -/
def workQueue (s : ThreadPool n m) : WorkQueue (Fin n) where
  queue := s.tasks_
  closed := s.stop_
  issued := s.enqueued
  taken := s.taken
  started := s.started
  finished := s.finished
  stage := stages s.phase

theorem stages_notifyOne {mon mon' : Monitor (Thread n m) Thread.At Thread.Section}
    {target : Option (Thread n m)} (h : mon.notifyOne? target = some mon') :
    stages mon'.phase = stages mon.phase := by
  obtain ⟨t, i, -, ht, rfl⟩ | ⟨-, -, rfl⟩ := Monitor.notifyOne?_eq_some h
  · exact stages_update_section mon.phase (by rw [ht, Phase.section?_parked])
      (Phase.section?_woken i)
  · rfl

/-- The pool refines the work queue: every step of a thread is one of its moves. -/
theorem workQueue_move (h : StepsTo s a t) : s.workQueue.Move t.workQueue := by
  -- the steps that only concern the mutex and the condition variable
  have stay {phase : ∀ t : Thread n m, Phase t.At t.Section}
      (hphase : stages phase = stages s.phase) :
      s.workQueue.Move { s.workQueue with stage := stages phase } := by
    rw [hphase]
    exact .stay
  cases h with
  | @lock u i hfree hu =>
    have hold : (s.phase u).section? = some i := by
      rcases hu with hu | hu <;> rw [hu] <;> rfl
    exact stay (stages_update_section s.phase hold (Phase.section?_inside i))
  | spurious hu =>
    exact stay (stages_update_section s.phase (by rw [hu]; rfl) (Phase.section?_woken _))
  | returns hw hstop htasks =>
    simp only [workQueue, Monitor.release, stages_update_worker]
    exact .leave _ (stages_of_inside hw) hstop htasks
  | parks hw hstop htasks =>
    exact stay (stages_update_section s.phase (by rw [hw]; rfl) (Phase.section?_parked _))
  | takes hw htasks =>
    simp only [workQueue, Monitor.release, stages_update_worker]
    exact .take _ _ _ (stages_of_inside hw) htasks
  | startTask hw =>
    simp only [workQueue, Monitor.goto, stages_update_worker]
    exact .start _ _ (congrArg stageOf hw)
  | finishTask hw =>
    simp only [workQueue, Monitor.goto, stages_update_worker]
    exact .finish _ _ (congrArg stageOf hw)
  | push hc =>
    simp only [workQueue, Monitor.release, stages_update_caller]
    exact .put
  | setStop hd =>
    simp only [workQueue, Monitor.release, stages_update_destructor]
    exact .close
  | notifyOne hc hmon =>
    refine stay ((stages_notifyOne hmon).trans ?_)
    exact stages_update_caller s.phase _ _
  | notifyAll hd =>
    refine stay ((stages_update_destructor _ _).trans ?_)
    exact funext fun v => stageOf_wake (s.phase (.worker v))
  | enqueue hc | wait hc | waitReturns hc htasks | waitParks hc htasks =>
    exact stay (stages_update_caller _ _ _)
  | destroy hd | join h hd hw => exact stay (stages_update_destructor _ _)

theorem workQueue_step (h : s.step a = some t) : s.workQueue.Move t.workQueue :=
  workQueue_move (step_cases h)

theorem stage_init (w : Fin n) : (init n m).workQueue.stage w = .free := rfl

theorem itemsOf_init (f : Stage → List ℕ) (hf : f .free = []) :
    WorkQueue.itemsOf f (init n m).workQueue.stage = 0 :=
  Finset.sum_eq_zero fun _ _ => congrArg _ hf

theorem accounted_init : (init n m).workQueue.Accounted where
  taken_queue := rfl
  taken_eq := by
    rw [itemsOf_init _ rfl]
    rfl
  started_eq := by
    rw [itemsOf_init _ rfl]
    rfl

theorem accounted_of_reachable (h : Reachable step (init n m) s) : s.workQueue.Accounted :=
  reachable_invariant (I := fun s => s.workQueue.Accounted) accounted_init
    (fun _ _ _ hs ht => hs.move (workQueue_step ht)) h

theorem inOrder_of_reachable (h : Reachable step (init n m) s) : s.workQueue.InOrder :=
  reachable_invariant (I := fun s => s.workQueue.InOrder) (fun _ => List.Sublist.refl [])
    (fun _ _ _ hs ht => hs.move (workQueue_step ht)) h

def Event.isPush : Event n m → Bool
  | .push _ => true
  | _ => false

/-- A task is enqueued before the destructor sets the flag. -/
def EnqueuesBeforeStop (s : ThreadPool n m) (a : Event n m) : Prop :=
  a.isPush = true → s.stop_ = false

instance (s : ThreadPool n m) (a : Event n m) : Decidable (EnqueuesBeforeStop s a) :=
  inferInstanceAs (Decidable (a.isPush = true → s.stop_ = false))

theorem enqueued_of_stop (h : StepsTo s a t) (ha : EnqueuesBeforeStop s a)
    (hstop : s.stop_ = true) : t.enqueued = s.enqueued := by
  cases h with
  | push hc =>
    have hopen := ha rfl
    rw [hstop] at hopen
    cases hopen
  | _ => rfl

theorem settled_of_run {as : List (Event n m)} (h : run step (init n m) as = some s)
    (has : Steps step EnqueuesBeforeStop (init n m) as) : s.workQueue.Settled := by
  refine run_invariant_of_steps (I := fun s => s.workQueue.Settled) (fun s a t hs ha ht => ?_)
    (WorkQueue.settled_of_no_gone fun w => ?_) has h
  · exact hs.move (workQueue_step ht) (enqueued_of_stop (step_cases ht) ha)
  · rw [stage_init]
    exact nofun

/-- The workers that the destructor has joined have returned. -/
def JoinedReturned (s : ThreadPool n m) : Prop :=
  ∀ joined, s.phase .destructor = .outside (.joining joined) → joined ≤ n ∧
    ∀ w : Fin n, w < joined → s.phase (.worker w) = .outside .returned

/-- A worker that has returned takes no more steps. -/
theorem returned_stays (h : StepsTo s a t) {w : Fin n}
    (hw : s.phase (.worker w) = .outside .returned) : t.phase (.worker w) = .outside .returned := by
  by_cases hthread : Thread.worker w = a.thread
  · -- every step of a worker starts somewhere else
    cases h with
    | lock hfree hu =>
      cases hthread
      rw [hw] at hu
      rcases hu with hu | hu <;> cases hu
    | spurious hu | returns hu hstop htasks | parks hu hstop htasks | takes hu htasks
    | startTask hu | finishTask hu =>
      cases hthread
      rw [hw] at hu
      cases hu
    | _ => cases hthread
  · exact (outside_of_ne h hthread).mpr hw

theorem JoinedReturned.step (hs : JoinedReturned s) (h : StepsTo s a t) : JoinedReturned t := by
  intro joined hd
  by_cases hthread : Thread.destructor = a.thread
  · cases h with
    | lock hfree hu | spurious hu =>
      cases hthread
      simp only [Monitor.goto, Function.update_self, reduceCtorEq] at hd
    | destroy hu | setStop hu =>
      simp only [Monitor.goto, Monitor.release, Function.update_self, Phase.outside.injEq,
        reduceCtorEq] at hd
    | notifyAll hu =>
      simp only [Monitor.goto, Function.update_self, Phase.outside.injEq,
        DestructorAt.joining.injEq] at hd
      subst hd
      exact ⟨Nat.zero_le n, fun w hw => absurd hw (Nat.not_lt_zero w)⟩
    | @join k hk hu hret =>
      simp only [Monitor.goto, Function.update_self, Phase.outside.injEq,
        DestructorAt.joining.injEq] at hd
      subst hd
      refine ⟨hk, fun w hw => returned_stays (.join hk hu hret) ?_⟩
      -- either the worker just joined, or one joined before
      rcases Nat.lt_succ_iff_lt_or_eq.mp hw with hlt | heq
      · exact (hs k hu).2 w hlt
      · obtain rfl : w = ⟨k, hk⟩ := Fin.ext heq
        exact hret
    | _ => cases hthread
  · obtain ⟨hle, hjoined⟩ := hs joined ((outside_of_ne h hthread).mp hd)
    exact ⟨hle, fun w hw => returned_stays h (hjoined w hw)⟩

theorem joinedReturned_of_reachable (h : Reachable step (init n m) s) : JoinedReturned s :=
  reachable_invariant (fun _ hd => by cases hd) (fun _ _ _ hs ht => hs.step (step_cases ht)) h

/-- The destructor has joined every worker. -/
def Joined (s : ThreadPool n m) : Prop := s.phase .destructor = .outside (.joining n)

/-- The tasks are started in the order in which they were enqueued. -/
def StartedInOrder (s : ThreadPool n m) : Prop := (s.started.map Prod.snd).Pairwise (· < ·)

/-- A caller enqueues two tasks, two workers take them, and the second worker starts first. -/
def overtaking (c : Fin m) (v w : Fin n) : List (Event n m) :=
  [.enqueue c, .lock (.caller c), .push c, .notifyOne c none,
    .enqueue c, .lock (.caller c), .push c, .notifyOne c none,
    .lock (.worker v), .fetch v, .lock (.worker w), .fetch w, .startTask w, .startTask v]

theorem overtaking_starts_later_task : ∃ s, run step (init 2 1) (overtaking 0 0 1) = some s ∧
    ¬ StartedInOrder s := by
  have hrun : (run step (init 2 1) (overtaking 0 0 1)).map (·.started) =
      some [(1, 1), (0, 0)] := by rfl
  obtain ⟨s, hs, hstarted⟩ := Option.map_eq_some_iff.mp hrun
  refine ⟨s, hs, ?_⟩
  rw [StartedInOrder, hstarted]
  decide

/-- Every task is started at most once. The tasks leave the queue in the order in which they were
enqueued, and each worker starts its own in that order. Once the destructor has joined the workers,
every task has been run to its end exactly once, unless one was enqueued after the flag was set. -/
theorem executes_exactly_once (n m : ℕ) (as : List (Event n m)) (s : ThreadPool n m)
    (h : run step (init n m) as = some s) :
    (s.started.map Prod.snd).Nodup ∧
      s.taken ++ s.tasks_ = List.range s.enqueued ∧
      (∀ w, (WorkQueue.startedBy s.started w).Pairwise (· < ·)) ∧
      (n = 1 → StartedInOrder s) ∧
      (0 < n → Steps step EnqueuesBeforeStop (init n m) as → Joined s →
        s.finished.Perm (List.range s.enqueued)) := by
  have haccounted := accounted_of_reachable ⟨as, h⟩
  have horder := inOrder_of_reachable ⟨as, h⟩
  refine ⟨haccounted.started_nodup, haccounted.taken_queue, horder.startedBy_pairwise haccounted,
    fun hn => ?_, fun hn has hjoined => ?_⟩
  · subst hn
    exact horder.started_pairwise haccounted
  · have hreturned (w : Fin n) : s.workQueue.stage w = .gone :=
      congrArg stageOf ((joinedReturned_of_reachable ⟨as, h⟩ n hjoined).2 w w.isLt)
    have hqueue : s.tasks_ = [] := (settled_of_run h has ⟨0, hn⟩ (hreturned _)).2
    refine haccounted.finished_perm hqueue fun w => ?_
    rw [hreturned w]
    exact ⟨rfl, rfl⟩

/-- One task, enqueued, run, and the pool destroyed. -/
def lifetime (c : Fin m) (w : Fin n) : List (Event n m) :=
  [.enqueue c, .lock (.caller c), .push c, .notifyOne c none,
    .lock (.worker w), .fetch w, .startTask w, .finishTask w,
    .destroy, .lock .destructor, .setStop, .notifyAll, .lock (.worker w), .fetch w, .join]

theorem lifetime_executes : ∃ s, run step (init 1 1) (lifetime 0 0) = some s ∧
    s.finished.Perm (List.range s.enqueued) := by
  have hrun : (run step (init 1 1) (lifetime 0 0)).map (·.phase .destructor) =
      some (.outside (.joining 1)) := by rfl
  obtain ⟨s, hs, hjoined⟩ := Option.map_eq_some_iff.mp hrun
  have hexecutes := executes_exactly_once 1 1 (lifetime 0 0) s hs
  exact ⟨s, hs, hexecutes.2.2.2.2 Nat.one_pos (by decide) hjoined⟩

end OpenAPT.ThreadPool
