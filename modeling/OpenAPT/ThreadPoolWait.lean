import OpenAPT.ThreadPoolTasks

/-! What a caller of `wait` can rely on. It looks at the queue only, and it shares the condition
variable with the workers. -/
namespace OpenAPT.ThreadPool

open EventMachine

variable {n m : ℕ} {s t : ThreadPool n m} {a : Event n m}

/-! ### The barrier -/

theorem enqueued_le (h : StepsTo s a t) : s.enqueued ≤ t.enqueued := by
  cases h with
  | push hc => exact Nat.le_succ s.enqueued
  | _ => exact Nat.le_refl s.enqueued

/-- A caller comes to the body of `wait` by calling it. -/
theorem wait_section (h : StepsTo s a t) {c : Fin m} {seen : ℕ}
    (hc : (t.phase (.caller c)).section? = some (.wait seen)) :
    (s.phase (.caller c)).section? = some (.wait seen) ∨ seen = s.enqueued := by
  by_cases hthread : Thread.caller c = a.thread
  · cases h with
    | lock hfree hu =>
      cases hthread
      simp only [Function.update_self, Phase.section?_inside] at hc
      left
      rcases hu with hu | hu <;> rw [hu, ← hc] <;> rfl
    | spurious hu =>
      cases hthread
      simp only [Monitor.goto, Function.update_self, Phase.section?_woken] at hc
      left
      rw [hu, ← hc, Phase.section?_parked]
    | wait hu =>
      cases hthread
      simp only [Monitor.goto, Function.update_self, Phase.section?_locking, Option.some.injEq,
        CallerSection.wait.injEq] at hc
      exact .inr hc.symm
    | waitParks hu htasks =>
      cases hthread
      simp only [Monitor.release, Function.update_self, Phase.section?_parked] at hc
      left
      rw [hu, ← hc, Phase.section?_inside]
    | notifyOne hu hmon =>
      cases hthread
      have hidle := notifier_idle hmon
      simp only [hidle, Phase.section?_outside, reduceCtorEq] at hc
    | enqueue hu | push hu | waitReturns hu htasks =>
      cases hthread
      simp only [Monitor.goto, Monitor.release, Function.update_self, Phase.section?_locking,
        Phase.section?_outside, Option.some.injEq, reduceCtorEq] at hc
    | _ => cases hthread
  · left
    rw [← section?_of_ne h hthread, hc]

/-- No call of `wait` has seen more tasks than there are. -/
def SeenBounded (s : ThreadPool n m) : Prop :=
  ∀ c seen, (s.phase (.caller c)).section? = some (.wait seen) → seen ≤ s.enqueued

theorem SeenBounded.step (hs : SeenBounded s) (h : StepsTo s a t) : SeenBounded t := by
  intro c seen hc
  rcases wait_section h hc with hc | rfl
  · exact (hs c seen hc).trans (enqueued_le h)
  · exact enqueued_le h

theorem seenBounded_of_reachable (h : Reachable step (init n m) s) : SeenBounded s :=
  reachable_invariant (fun _ _ hc => by cases hc) (fun _ _ _ hs ht => hs.step (step_cases ht)) h

/-- The step is the return of a call of `wait` that was made when `seen` tasks had been enqueued. -/
def ReturnsFromWait (s : ThreadPool n m) (a : Event n m) (seen : ℕ) : Prop :=
  ∃ c, a = .checkEmpty c ∧ s.phase (.caller c) = .inside (.wait seen) ∧ s.tasks_ = []

/-- When `wait` returns, the tasks enqueued before it was called have finished. -/
def Barrier (s : ThreadPool n m) (a : Event n m) : Prop :=
  ∀ seen, ReturnsFromWait s a seen → ∀ task < seen, task ∈ s.finished

/-- When `wait` finds the queue empty, no worker is between the pop of a task enqueued before the
call and the end of that task. -/
def NoneInFlight (s : ThreadPool n m) (a : Event n m) : Prop :=
  ∀ seen, ReturnsFromWait s a seen → ∀ w, ∀ task < seen,
    s.phase (.worker w) ≠ .outside (.holding task) ∧ s.phase (.worker w) ≠ .outside (.running task)

theorem stageOf_eq_holding {ph : Phase WorkerAt WorkerSection} {task : ℕ} :
    stageOf ph = .holding task ↔ ph = .outside (.holding task) := by
  constructor
  · intro h
    match ph, h with
    | .outside (.holding _), rfl => rfl
  · rintro rfl
    rfl

theorem stageOf_eq_running {ph : Phase WorkerAt WorkerSection} {task : ℕ} :
    stageOf ph = .running task ↔ ph = .outside (.running task) := by
  constructor
  · intro h
    match ph, h with
    | .outside (.running _), rfl => rfl
  · rintro rfl
    rfl

theorem barrier_iff_noneInFlight (h : Reachable step (init n m) s) (a : Event n m) :
    Barrier s a ↔ NoneInFlight s a := by
  refine forall₂_congr fun seen hreturns => ?_
  obtain ⟨c, -, hc, hempty⟩ := hreturns
  have hseen : seen ≤ s.enqueued :=
    seenBounded_of_reachable h c seen (by rw [hc, Phase.section?_inside])
  have haccounted := accounted_of_reachable h
  -- the queue is empty, so every task enqueued so far has been taken
  have htaken (task : ℕ) (htask : task < seen) : task ∈ s.taken := by
    have hall : s.taken ++ s.tasks_ = List.range s.enqueued := haccounted.taken_queue
    rw [hempty, List.append_nil] at hall
    rw [hall, List.mem_range]
    omega
  have hfinished (task : ℕ) (htask : task < seen) : task ∈ s.finished ↔ ∀ w,
      s.phase (.worker w) ≠ .outside (.holding task) ∧
        s.phase (.worker w) ≠ .outside (.running task) := by
    refine (haccounted.mem_finished_iff (htaken task htask)).trans (forall_congr' fun w => ?_)
    exact and_congr (not_congr stageOf_eq_holding) (not_congr stageOf_eq_running)
  constructor
  · intro hbarrier w task htask
    exact (hfinished task htask).mp (hbarrier task htask) w
  · intro hnone task htask
    exact (hfinished task htask).mpr fun w => hnone w task htask

/-- `wait` is a barrier in a run exactly when, each time it returns, no worker has a task that was
enqueued before the call. -/
theorem wait_barrier_iff (n m : ℕ) (as : List (Event n m)) :
    Steps step Barrier (init n m) as ↔ Steps step NoneInFlight (init n m) as :=
  steps_congr (I := Reachable step (init n m)) (fun _ _ _ hs ht => hs.tail ht)
    (fun _ a hs => barrier_iff_noneInFlight hs a) ⟨[], rfl⟩ as

/-- A worker pops the only task, and another thread calls `wait`. -/
def popThenWait (w : Fin n) (c d : Fin m) : List (Event n m) :=
  [.enqueue c, .lock (.caller c), .push c, .notifyOne c none, .lock (.worker w), .fetch w,
    .wait d, .lock (.caller d)]

/-- Then `wait` returns before the task has even been started. -/
theorem wait_returns_before_task :
    ¬ Steps step Barrier (init 1 2) (popThenWait 0 0 1 ++ [.checkEmpty 1]) := by
  have hrun : (run step (init 1 2) (popThenWait 0 0 1)).map
      (fun s => (s.phase (.caller 1), s.tasks_, s.finished)) =
      some (.inside (.wait 1), [], []) := by rfl
  obtain ⟨s, hs, hstate⟩ := Option.map_eq_some_iff.mp hrun
  obtain ⟨hcaller, hempty, hfinished⟩ : s.phase (.caller 1) = .inside (.wait 1) ∧
      s.tasks_ = [] ∧ s.finished = [] := by simpa only [Prod.mk.injEq] using hstate
  intro h
  have hmem := h.last hs 1 ⟨1, rfl, hcaller, hempty⟩ 0 Nat.one_pos
  rw [hfinished] at hmem
  cases hmem

/-! ### Wake-ups -/

/-- No thread has been woken and not yet run, and no `notify_one` is still to be called. -/
def NoWakeupPending (s : ThreadPool n m) : Prop :=
  (∀ u, ¬ (s.phase u).Woken) ∧ ∀ c, s.phase (.caller c) ≠ .outside .notifying

/-- When all workers of a running pool are blocked and no wake-up is pending, no task is left in the
queue and no caller is left in `wait`. -/
def NothingStranded (s : ThreadPool n m) : Prop :=
  s.stop_ = false → (∀ w, (s.phase (.worker w)).Parked) → NoWakeupPending s →
    s.tasks_ = [] ∧ ∀ c, ¬ (s.phase (.caller c)).Parked

instance (s : ThreadPool n m) : Decidable (NothingStranded s) :=
  inferInstanceAs (Decidable (s.stop_ = false → (∀ w, (s.phase (.worker w)).Parked) →
    ((∀ u, ¬ (s.phase u).Woken) ∧ ∀ c, s.phase (.caller c) ≠ .outside .notifying) →
      s.tasks_ = [] ∧ ∀ c, ¬ (s.phase (.caller c)).Parked))

/-- The step loses no wake-up. There are workers to run the task that is enqueued; a worker does not
empty the queue while a caller is blocked in `wait`, since nobody would tell it; and `notify_one`
wakes a caller of `wait` only if no task needs the worker that it does not wake. -/
def KeepsWakeups (s : ThreadPool n m) : Event n m → Prop
  | .push _ => 0 < n
  | .fetch _ => s.stop_ = false → s.tasks_.length = 1 → ∀ c, ¬ (s.phase (.caller c)).Parked
  | .notifyOne c (some u) => (∃ w, u = .worker w) ∨ s.tasks_ = [] ∨
      (∃ w, ¬ (s.phase (.worker w)).Parked) ∨
      ∃ other, other ≠ c ∧ s.phase (.caller other) = .outside .notifying
  | _ => True

instance (s : ThreadPool n m) : ∀ a, Decidable (KeepsWakeups s a)
  | .push _ => inferInstanceAs (Decidable (0 < n))
  | .fetch _ => inferInstanceAs (Decidable (s.stop_ = false → s.tasks_.length = 1 →
      ∀ c, ¬ (s.phase (.caller c)).Parked))
  | .notifyOne c (some u) => inferInstanceAs (Decidable ((∃ w, u = .worker w) ∨ s.tasks_ = [] ∨
      (∃ w, ¬ (s.phase (.worker w)).Parked) ∨
      ∃ other, other ≠ c ∧ s.phase (.caller other) = .outside .notifying))
  | .lock _ | .spurious _ | .startTask _ | .finishTask _ | .enqueue _ | .notifyOne _ none | .wait _
  | .checkEmpty _ | .destroy | .setStop | .notifyAll | .join => isTrue trivial

theorem stop_before (h : StepsTo s a t) (hstop : t.stop_ = false) : s.stop_ = false := by
  cases h with
  | setStop hd => cases hstop
  | _ => exact hstop

theorem tasks_appear (h : StepsTo s a t) (htasks : t.tasks_ ≠ []) :
    s.tasks_ ≠ [] ∨ ∃ c, a = .push c := by
  cases h with
  | push hc => exact .inr ⟨_, rfl⟩
  | takes hw hcons =>
    left
    rw [hcons]
    exact List.cons_ne_nil _ _
  | _ => exact .inl htasks

theorem tasks_vanish (h : StepsTo s a t) (hs : s.tasks_ ≠ []) (ht : t.tasks_ = []) :
    ∃ w, a = .fetch w ∧ s.tasks_.length = 1 := by
  cases h with
  | @takes w task rest hw hcons =>
    have hrest : rest = [] := ht
    exact ⟨w, rfl, by rw [hcons, hrest, List.length_singleton]⟩
  | push hc => exact absurd ht (List.append_ne_nil_of_right_ne_nil _ (List.cons_ne_nil _ _))
  | _ => exact absurd ht hs

/-- A thread comes to be blocked in the condition variable only by its own step. -/
theorem parked_cases (h : StepsTo s a t) {u : Thread n m} (hu : (t.phase u).Parked) :
    (s.phase u).Parked ∨ (∃ w, u = .worker w ∧ s.tasks_ = []) ∨
      ∃ c, u = .caller c ∧ s.tasks_ ≠ [] ∧ t.tasks_ = s.tasks_ := by
  by_cases hthread : u = a.thread
  · subst hthread
    cases h with
    | parks hw hstop htasks => exact .inr (.inl ⟨_, rfl, htasks⟩)
    | waitParks hc htasks => exact .inr (.inr ⟨_, rfl, htasks, rfl⟩)
    | notifyOne hc hmon =>
      have hidle := notifier_idle hmon
      refine absurd hu ?_
      simp only [Event.thread, hidle, Phase.not_parked_outside, not_false_eq_true]
    | _ => exact absurd hu (by simp [Event.thread, Monitor.goto, Monitor.release])
  · exact .inl (parked_of_ne h hthread hu)

theorem notifying_stays (h : StepsTo s a t) {c : Fin m}
    (hc : s.phase (.caller c) = .outside .notifying) :
    t.phase (.caller c) = .outside .notifying ∨ ∃ target, a = .notifyOne c target := by
  by_cases hthread : Thread.caller c = a.thread
  · cases h with
    | notifyOne hu hmon =>
      cases hthread
      exact .inr ⟨_, rfl⟩
    | lock hfree hu =>
      cases hthread
      rw [hc] at hu
      rcases hu with hu | hu <;> cases hu
    | spurious hu | enqueue hu | push hu | wait hu | waitReturns hu htasks | waitParks hu htasks =>
      cases hthread
      rw [hc] at hu
      cases hu
    | _ => cases hthread
  · exact .inl ((outside_of_ne h hthread).mpr hc)

/-- What keeps a wake-up coming for every task and every satisfied caller. -/
structure Served (s : ThreadPool n m) : Prop where
  workers : s.tasks_ ≠ [] → 0 < n
  task : s.stop_ = false → s.tasks_ ≠ [] → (∃ w, ¬ (s.phase (.worker w)).Parked) ∨
    ∃ c, s.phase (.caller c) = .outside .notifying
  callers : s.stop_ = false → s.tasks_ = [] → ∀ c, ¬ (s.phase (.caller c)).Parked

theorem served_init : Served (init n m) where
  workers h := absurd rfl h
  task _ h := absurd rfl h
  callers _ _ _ := Phase.not_parked_outside _

theorem worker_stays_up (h : StepsTo s a t) (htasks : s.tasks_ ≠ []) {w : Fin n}
    (hw : ¬ (s.phase (.worker w)).Parked) : ¬ (t.phase (.worker w)).Parked := by
  intro hparked
  rcases parked_cases h hparked with hw' | ⟨-, -, hempty⟩ | ⟨c, hc, -⟩
  · exact hw hw'
  · exact htasks hempty
  · cases hc

theorem Served.workers_step (hs : Served s) (ha : KeepsWakeups s a) (h : StepsTo s a t)
    (htasks : t.tasks_ ≠ []) : 0 < n := by
  rcases tasks_appear h htasks with hold | ⟨c, rfl⟩
  · exact hs.workers hold
  · exact ha

/-- After `notify_one`, the queued tasks still have a worker that is up or another notification. -/
theorem Served.notify_step (hs : Served s) {c : Fin m} {target : Option (Thread n m)}
    (ha : KeepsWakeups s (.notifyOne c target)) (h : StepsTo s (.notifyOne c target) t)
    (htasks : s.tasks_ ≠ []) : (∃ w, ¬ (t.phase (.worker w)).Parked) ∨
      ∃ other, t.phase (.caller other) = .outside .notifying := by
  have stays {other : Fin m} (hne : other ≠ c)
      (hother : s.phase (.caller other) = .outside .notifying) :
      t.phase (.caller other) = .outside .notifying := by
    rcases notifying_stays h hother with ht | ⟨target', heq⟩
    · exact ht
    · exact absurd (Event.notifyOne.inj heq).1.symm hne
  cases target with
  | some u =>
    rcases ha with ⟨w, rfl⟩ | hempty | ⟨w, hw⟩ | ⟨other, hne, hother⟩
    · cases h with
      | notifyOne hc hmon => exact .inl ⟨w, Monitor.notifyOne?_some hmon⟩
    · exact absurd hempty htasks
    · exact .inl ⟨w, worker_stays_up h htasks hw⟩
    · exact .inr ⟨other, stays hne hother⟩
  | none =>
    -- nobody is blocked, so neither is a worker
    have hn := hs.workers htasks
    cases h with
    | notifyOne hc hmon => exact .inl ⟨⟨0, hn⟩, Monitor.notifyOne?_none hmon _⟩

theorem Served.task_step (hs : Served s) (ha : KeepsWakeups s a) (h : StepsTo s a t)
    (hstop : t.stop_ = false) (htasks : t.tasks_ ≠ []) :
    (∃ w, ¬ (t.phase (.worker w)).Parked) ∨
      ∃ c, t.phase (.caller c) = .outside .notifying := by
  rcases tasks_appear h htasks with hold | ⟨c, rfl⟩
  · rcases hs.task (stop_before h hstop) hold with ⟨w, hw⟩ | ⟨c, hc⟩
    · exact .inl ⟨w, worker_stays_up h hold hw⟩
    · rcases notifying_stays h hc with ht | ⟨target, rfl⟩
      · exact .inr ⟨c, ht⟩
      · exact hs.notify_step ha h hold
  · -- the caller has yet to notify
    cases h with
    | push hc => exact .inr ⟨c, Function.update_self _ _ _⟩

theorem Served.callers_step (hs : Served s) (ha : KeepsWakeups s a) (h : StepsTo s a t)
    (hstop : t.stop_ = false) (hempty : t.tasks_ = []) (c : Fin m) :
    ¬ (t.phase (.caller c)).Parked := by
  intro hc
  rcases parked_cases h hc with hparked | ⟨w, hw, -⟩ | ⟨c', -, htasks, heq⟩
  · by_cases hold : s.tasks_ = []
    · exact hs.callers (stop_before h hstop) hold c hparked
    · obtain ⟨w, rfl, hlength⟩ := tasks_vanish h hold hempty
      exact ha (stop_before h hstop) hlength c hparked
  · cases hw
  · exact htasks (heq ▸ hempty)

theorem Served.step (hs : Served s) (ha : KeepsWakeups s a) (h : StepsTo s a t) : Served t where
  workers := hs.workers_step ha h
  task := hs.task_step ha h
  callers := hs.callers_step ha h

theorem Served.nothingStranded (hs : Served s) : NothingStranded s := by
  intro hstop hparked hpending
  have hempty : s.tasks_ = [] := by
    by_contra htasks
    rcases hs.task hstop htasks with ⟨w, hw⟩ | ⟨c, hc⟩
    · exact hw (hparked w)
    · exact hpending.2 c hc
  exact ⟨hempty, hs.callers hstop hempty⟩

/-- A run whose steps lose no wake-up strands neither a task nor a caller of `wait`, in any of its
states. -/
theorem no_wakeup_lost (n m : ℕ) (as : List (Event n m))
    (h : Steps step KeepsWakeups (init n m) as) : States step NothingStranded (init n m) as :=
  states_imp (fun _ hs => hs.nothingStranded)
    (states_of_steps (fun _ _ _ hs ha ht => hs.step ha (step_cases ht)) served_init h)

/-- The blocked worker is the one that is notified. -/
theorem no_wakeup_lost_worker : States step NothingStranded (init 1 1)
    [.lock (.worker 0), .fetch 0, .enqueue 0, .lock (.caller 0), .push 0,
      .notifyOne 0 (some (.worker 0)), .lock (.worker 0), .fetch 0, .startTask 0, .finishTask 0] :=
  no_wakeup_lost 1 1 _ (by decide)

/-- A worker is blocked, a task is enqueued while another thread calls `wait`, and `notify_one`
wakes that thread, which blocks again. -/
def wakesTheWaiter (w : Fin n) (c d : Fin m) : List (Event n m) :=
  [.lock (.worker w), .fetch w, .enqueue c, .lock (.caller c), .push c,
    .wait d, .lock (.caller d), .checkEmpty d, .notifyOne c (some (.caller d)),
    .lock (.caller d), .checkEmpty d]

/-- Then the task and the caller of `wait` are stranded. -/
theorem wakesTheWaiter_strands : ∃ s, run step (init 1 2) (wakesTheWaiter 0 0 1) = some s ∧
    ¬ NothingStranded s := by
  have hrun : (run step (init 1 2) (wakesTheWaiter 0 0 1)).map
      (fun s => decide (NothingStranded s)) = some false := by rfl
  obtain ⟨s, hs, hstranded⟩ := Option.map_eq_some_iff.mp hrun
  exact ⟨s, hs, of_decide_eq_false hstranded⟩

end OpenAPT.ThreadPool
