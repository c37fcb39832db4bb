import OpenAPT.Lib.Workload
import OpenAPT.ThreadPoolWait

/-! The pool of the launcher's header. Its workers and its destructor are those of the thread pool,
but its `enqueue` throws once the flag is set, and it has no `wait`. -/
namespace OpenAPT

/-- The members of the pool, with the callers whose `enqueue` has thrown. -/
structure LauncherPool (n m : ℕ) extends ThreadPool n m where
  refused : List (Fin m)

namespace LauncherPool

open EventMachine

variable {n m : ℕ} {p q : LauncherPool n m} {a : ThreadPool.Event n m}

def init (n m : ℕ) : LauncherPool n m where
  toThreadPool := ThreadPool.init n m
  refused := []

/-- The `throw` of `enqueue` gives the mutex up and leaves the rest as it is. -/
def refuse (s : ThreadPool n m) (c : Fin m) : ThreadPool n m :=
  { s with toMonitor := s.release (.caller c) (.outside CallerAt.idle) }

/-- The block of `enqueue`. -/
def push (p : LauncherPool n m) (c : Fin m) : Option (LauncherPool n m) :=
  match p.phase (.caller c) with
  | .inside CallerSection.push =>
    -- `throw std::runtime_error("enqueue on stopped ThreadPool")`
    if p.stop_ then some ⟨refuse p.toThreadPool c, p.refused ++ [c]⟩
    else (p.toThreadPool.push c).map fun pool => ⟨pool, p.refused⟩
  | _ => none

/-- One step of one thread. Nobody calls `wait`. -/
def step (p : LauncherPool n m) : ThreadPool.Event n m → Option (LauncherPool n m)
  | .push c => p.push c
  | .wait _ | .checkEmpty _ => none
  | a => (p.toThreadPool.step a).map fun pool => ⟨pool, p.refused⟩

def isWait : ThreadPool.Event n m → Bool
  | .wait _ | .checkEmpty _ => true
  | _ => false

/-- A step of the pool is one of the thread pool, or the refusal of a task. -/
inductive StepsTo (p : LauncherPool n m) : ThreadPool.Event n m → LauncherPool n m → Prop
  | shared {a : ThreadPool.Event n m} {pool : ThreadPool n m}
      (h : ThreadPool.StepsTo p.toThreadPool a pool)
      (hopen : ThreadPool.EnqueuesBeforeStop p.toThreadPool a) (hwait : isWait a = false) :
      StepsTo p a ⟨pool, p.refused⟩
  | refuses {c : Fin m} (hc : p.phase (.caller c) = .inside CallerSection.push)
      (hstop : p.stop_ = true) :
      StepsTo p (.push c) ⟨refuse p.toThreadPool c, p.refused ++ [c]⟩

theorem push_cases {c : Fin m} (h : p.push c = some q) : StepsTo p (.push c) q := by
  unfold push at h
  split at h
  next hc =>
    split at h
    next hstop =>
      obtain rfl := Option.some.inj h
      exact .refuses hc hstop
    next hstop =>
      obtain ⟨pool, hpool, rfl⟩ := Option.map_eq_some_iff.mp h
      refine .shared (ThreadPool.step_cases hpool) (fun _ => ?_) rfl
      exact Bool.eq_false_iff.mpr hstop
  next => cases h

theorem step_cases (h : p.step a = some q) : StepsTo p a q := by
  cases a with
  | push c => exact push_cases h
  | wait c | checkEmpty c => cases h
  | _ =>
    obtain ⟨pool, hpool, rfl⟩ := Option.map_eq_some_iff.mp h
    exact .shared (ThreadPool.step_cases hpool) nofun rfl

/-! ### What becomes of the tasks -/

/-- A refusal does not touch the queue, so the pool too refines the work queue. -/
theorem workQueue_move (h : StepsTo p a q) : p.workQueue.Move q.workQueue := by
  cases h with
  | shared h hopen hwait => exact ThreadPool.workQueue_move h
  | @refuses c hc hstop =>
    have hstages := ThreadPool.stages_update_caller p.phase c (.outside CallerAt.idle)
    -- the caller that is refused holds no task, so the queue does not see it move
    have hsame : ThreadPool.workQueue (refuse p.toThreadPool c) = p.workQueue := by
      simp only [ThreadPool.workQueue, refuse, Monitor.release, hstages]
    rw [hsame]
    exact .stay

theorem accounted_of_reachable (h : Reachable step (init n m) p) : p.workQueue.Accounted :=
  reachable_invariant (I := fun p => p.workQueue.Accounted) ThreadPool.accounted_init
    (fun _ _ _ hs ht => hs.move (workQueue_move (step_cases ht))) h

theorem inOrder_of_reachable (h : Reachable step (init n m) p) : p.workQueue.InOrder :=
  reachable_invariant (I := fun p => p.workQueue.InOrder) (fun _ => List.Sublist.refl [])
    (fun _ _ _ hs ht => hs.move (workQueue_move (step_cases ht))) h

/-- Nothing is accepted once the flag is set. -/
theorem enqueued_of_stop (h : StepsTo p a q) (hstop : p.stop_ = true) : q.enqueued = p.enqueued := by
  cases h with
  | shared h hopen hwait => exact ThreadPool.enqueued_of_stop h hopen hstop
  | refuses hc _ => rfl

theorem stop_stays (h : StepsTo p a q) (hstop : p.stop_ = true) : q.stop_ = true := by
  cases h with
  | shared h hopen hwait =>
    by_contra hnot
    have hbefore := ThreadPool.stop_before h (Bool.eq_false_iff.mpr hnot)
    rw [hstop] at hbefore
    cases hbefore
  | refuses hc _ => exact hstop

theorem settled_of_reachable (h : Reachable step (init n m) p) : p.workQueue.Settled := by
  refine reachable_invariant (I := fun p => p.workQueue.Settled)
    (WorkQueue.settled_of_no_gone fun w => ?_) (fun p a q hs ht => ?_) h
  · exact nofun
  · exact hs.move (workQueue_move (step_cases ht)) (enqueued_of_stop (step_cases ht))

/-- A refusal moves one caller only. -/
theorem refuse_phase_of_ne (s : ThreadPool n m) (c : Fin m) {u : Thread n m}
    (hu : u ≠ .caller c) : (refuse s c).phase u = s.phase u :=
  Monitor.release_phase_of_ne s.toMonitor hu _

theorem joinedReturned_refuse {s : ThreadPool n m} (hs : ThreadPool.JoinedReturned s)
    (c : Fin m) : ThreadPool.JoinedReturned (refuse s c) := by
  intro joined hd
  have hdestructor : (refuse s c).phase .destructor = s.phase .destructor :=
    refuse_phase_of_ne s c nofun
  rw [hdestructor] at hd
  obtain ⟨hle, hreturned⟩ := hs joined hd
  refine ⟨hle, fun w hw => ?_⟩
  have hworker : (refuse s c).phase (.worker w) = s.phase (.worker w) :=
    refuse_phase_of_ne s c nofun
  rw [hworker]
  exact hreturned w hw

theorem joinedReturned_of_reachable (h : Reachable step (init n m) p) :
    ThreadPool.JoinedReturned p.toThreadPool := by
  refine reachable_invariant (I := fun p => ThreadPool.JoinedReturned p.toThreadPool)
    (fun _ hd => by cases hd) (fun p a q hs ht => ?_) h
  cases step_cases ht with
  | shared h hopen hwait => exact hs.step h
  | refuses hc hstop => exact joinedReturned_refuse hs _

theorem enqueued_step {s t : ThreadPool n m} (h : ThreadPool.StepsTo s a t) :
    t.enqueued = s.enqueued + a.isPush.toNat := by
  cases h <;> rfl

/-- Every call of `enqueue` that has come to its block was accepted or refused. -/
theorem calls_counted {as : List (ThreadPool.Event n m)} (h : run step p as = some q) :
    q.enqueued + q.refused.length =
      p.enqueued + p.refused.length + as.countP ThreadPool.Event.isPush := by
  induction as generalizing p with
  | nil =>
    obtain rfl : p = q := by simpa using h
    rfl
  | cons a as ih =>
    obtain ⟨r, hr, h⟩ := (run_cons_eq_some step).mp h
    -- one step counts itself, the rest is counted from where it leads
    have hfirst : r.enqueued + r.refused.length =
        p.enqueued + p.refused.length + a.isPush.toNat := by
      cases step_cases hr with
      | shared hpool hopen hwait =>
        have henqueued := enqueued_step hpool
        dsimp only
        omega
      | refuses hc hstop =>
        rw [List.length_append]
        exact (Nat.add_assoc _ _ _).symm
    rw [ih h, hfirst, List.countP_cons]
    cases a.isPush <;> simp only [Bool.toNat_false, Bool.toNat_true, if_true, Bool.false_eq_true,
      if_false] <;> omega

theorem refused_of_reachable (h : Reachable step (init n m) p) :
    p.refused ≠ [] → p.stop_ = true := by
  refine reachable_invariant (I := fun p => p.refused ≠ [] → p.stop_ = true)
    (fun hne => absurd rfl hne) (fun p a q hs ht hne => ?_) h
  have hstep := step_cases ht
  cases hstep with
  | shared hpool hopen hwait => exact stop_stays (.shared hpool hopen hwait) (hs hne)
  | refuses hc hstop => exact hstop

theorem enqueued_of_run {as : List (ThreadPool.Event n m)} (h : run step p as = some q)
    (hstop : p.stop_ = true) : q.enqueued = p.enqueued := by
  -- the flag is never taken back, so it goes along as a part of the invariant
  have hboth : q.stop_ = true ∧ q.enqueued = p.enqueued := by
    refine run_invariant_of_steps (I := fun q => q.stop_ = true ∧ q.enqueued = p.enqueued)
      (G := fun _ _ => True) (fun r a r' hr _ hr' => ?_) ⟨hstop, rfl⟩
      (steps_of_forall (fun _ _ => trivial) _ _) h
    have hstep := step_cases hr'
    exact ⟨stop_stays hstep hr.1, (enqueued_of_stop hstep hr.1).trans hr.2⟩
  exact hboth.2

/-- `enqueue` accepts until the flag is set and refuses from then on. What it accepts is started at
most once, by each worker in the order in which it was accepted, and once the destructor has joined
the workers it has been run to its end exactly once, and nothing else has. -/
theorem accepted_exactly_once (n m : ℕ) (hn : 0 < n) (as : List (ThreadPool.Event n m))
    (p : LauncherPool n m) (h : run step (init n m) as = some p) :
    as.countP ThreadPool.Event.isPush = p.enqueued + p.refused.length ∧
      (p.refused ≠ [] → p.stop_ = true) ∧
      (∀ bs q, run step p bs = some q → p.stop_ = true → q.enqueued = p.enqueued) ∧
      (p.started.map Prod.snd).Nodup ∧
      (∀ w, (WorkQueue.startedBy p.started w).Pairwise (· < ·)) ∧
      (ThreadPool.Joined p.toThreadPool → p.finished.Perm (List.range p.enqueued)) := by
  have hreach : Reachable step (init n m) p := ⟨as, h⟩
  have haccounted := accounted_of_reachable hreach
  refine ⟨?_, refused_of_reachable hreach, fun bs q hq => enqueued_of_run hq,
    haccounted.started_nodup, (inOrder_of_reachable hreach).startedBy_pairwise haccounted,
    fun hjoined => ?_⟩
  · have hcounted := calls_counted h
    have hzero : (init n m).enqueued + (init n m).refused.length = 0 := rfl
    omega
  · -- all workers have returned, which they only do from an empty queue
    have hgone (w : Fin n) : p.workQueue.stage w = .gone :=
      congrArg ThreadPool.stageOf ((joinedReturned_of_reachable hreach n hjoined).2 w w.isLt)
    have hqueue : p.tasks_ = [] := (settled_of_reachable hreach ⟨0, hn⟩ (hgone _)).2
    refine haccounted.finished_perm hqueue fun w => ?_
    rw [hgone w]
    exact ⟨rfl, rfl⟩

/-- A task is accepted, the destructor sets the flag while a second call is on its way, and that
call is refused. -/
def lateCall (c : Fin m) (w : Fin n) : List (ThreadPool.Event n m) :=
  [.enqueue c, .lock (.caller c), .push c, .notifyOne c none,
    .enqueue c, .destroy, .lock .destructor, .setStop, .lock (.caller c), .push c,
    .lock (.worker w), .fetch w, .startTask w, .finishTask w, .lock (.worker w), .fetch w,
    .notifyAll, .join]

theorem accepted_exactly_once_lateCall : ∃ p, run step (init 1 1) (lateCall 0 0) = some p ∧
    p.refused = [0] ∧ p.finished.Perm (List.range p.enqueued) := by
  have hrun : (run step (init 1 1) (lateCall 0 0)).map
      (fun p => (p.phase .destructor, p.refused)) = some (.outside (.joining 1), [0]) := by rfl
  obtain ⟨p, hp, hstate⟩ := Option.map_eq_some_iff.mp hrun
  obtain ⟨hjoined, hrefused⟩ : p.phase .destructor = .outside (.joining 1) ∧ p.refused = [0] := by
    simpa only [Prod.mk.injEq] using hstate
  have honce := accepted_exactly_once 1 1 Nat.one_pos (lateCall 0 0) p hp
  exact ⟨p, hp, hrefused, honce.2.2.2.2.2 hjoined⟩

end LauncherPool

end OpenAPT
