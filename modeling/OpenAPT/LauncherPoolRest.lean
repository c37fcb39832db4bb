import OpenAPT.LauncherPool

/-! The pool of the launcher comes to rest: the steps that are left to it run out, and when they
have, every task that it accepted has finished and nobody is left waiting. -/
namespace OpenAPT.LauncherPool

open EventMachine

variable {n m : ℕ} {p q : LauncherPool n m} {s t : ThreadPool n m} {a : ThreadPool.Event n m}

/-! ### The threads -/

/-- Where a thread can stand: only the workers wait on the condition variable. -/
def Usual : ∀ t : Thread n m, Phase t.At t.Section → Prop
  | .worker _, _ => True
  | .caller _, ph => ¬ ph.Parked ∧ ∀ seen, ph.section? ≠ some (CallerSection.wait seen)
  | .destructor, ph => ¬ ph.Parked

theorem usual_of_section {u : Thread n m} {ph ph' : Phase u.At u.Section} (h : Usual u ph)
    (hsection : ph'.section? = ph.section?) (hparked : ¬ ph'.Parked) : Usual u ph' := by
  cases u with
  | worker w => trivial
  | caller c => exact ⟨hparked, fun seen => hsection ▸ h.2 seen⟩
  | destructor => exact hparked

theorem usual_outside {u : Thread n m} (o : u.At) : Usual u (.outside o) := by
  cases u with
  | worker w => trivial
  | caller c => exact ⟨Phase.not_parked_outside o, nofun⟩
  | destructor => exact Phase.not_parked_outside o

theorem worker_of_parked {mon : Monitor (Thread n m) Thread.At Thread.Section}
    (h : mon.All Usual) {u : Thread n m} (hu : (mon.phase u).Parked) : ∃ w, u = .worker w := by
  cases u with
  | worker w => exact ⟨w, rfl⟩
  | caller c => exact absurd hu (h (.caller c)).1
  | destructor => exact absurd hu (h .destructor)

theorem usual_notifyOne {mon mon' : Monitor (Thread n m) Thread.At Thread.Section}
    {target : Option (Thread n m)} (hmon : mon.All Usual) (h : mon.notifyOne? target = some mon') :
    mon'.All Usual := by
  obtain ⟨u, i, -, hu, rfl⟩ | ⟨-, -, rfl⟩ := Monitor.notifyOne?_eq_some h
  · refine hmon.goto (usual_of_section (hmon u) ?_ (Phase.not_parked_woken i))
    rw [hu, Phase.section?_parked, Phase.section?_woken]
  · exact hmon

theorem usual_step (hs : s.toMonitor.All Usual) (h : ThreadPool.StepsTo s a t)
    (hwait : isWait a = false) : t.toMonitor.All Usual := by
  cases h with
  | @lock u i hfree hu =>
    refine hs.update (usual_of_section (hs u) ?_ (Phase.not_parked_inside i))
    rcases hu with hu | hu <;> rw [hu] <;> rfl
  | @spurious u i hu =>
    refine hs.goto (usual_of_section (hs u) ?_ (Phase.not_parked_woken i))
    rw [hu]
    rfl
  | parks hw hstop htasks | finishTask hw => exact hs.update trivial
  | enqueue hc => exact hs.goto ⟨Phase.not_parked_locking _, nofun⟩
  | notifyOne hc hmon => exact usual_notifyOne (hs.goto (usual_outside _)) hmon
  | wait hc | waitReturns hc htasks | waitParks hc htasks => cases hwait
  | destroy hd => exact hs.goto (Phase.not_parked_locking _)
  | notifyAll hd =>
    refine Monitor.All.goto (hs.notifyAll fun u ph hph => ?_) (usual_outside _)
    exact usual_of_section hph (Phase.section?_wake ph) (Phase.not_parked_wake ph)
  | returns hw hstop htasks | takes hw htasks | startTask hw | push hc | setStop hd
  | join h hd hw => exact hs.update (usual_outside _)

/-! ### The flag -/

/-- The destructor has set the flag. -/
def Stopping (ph : Phase DestructorAt DestructorSection) : Prop :=
  ph = .outside .notifying ∨ ∃ joined, ph = .outside (.joining joined)

theorem stopping_of_ne (h : ThreadPool.StepsTo s a t) (hthread : Thread.destructor ≠ a.thread) :
    Stopping (t.phase .destructor) ↔ Stopping (s.phase .destructor) := by
  apply or_congr
  · exact ThreadPool.outside_of_ne h hthread
  · exact exists_congr fun joined => ThreadPool.outside_of_ne h hthread

theorem stop_of_ne (h : ThreadPool.StepsTo s a t) (hthread : Thread.destructor ≠ a.thread) :
    t.stop_ = s.stop_ := by
  cases h with
  | setStop hd => exact absurd rfl hthread
  | _ => rfl

theorem not_stopping_of_section {ph : Phase DestructorAt DestructorSection}
    {i : DestructorSection} (h : ph.section? = some i) : ¬ Stopping ph := by
  rintro (rfl | ⟨joined, rfl⟩) <;> cases h

/-- The flag is set exactly while the destructor notifies and joins. -/
def FlagAgrees (s : ThreadPool n m) : Prop := s.stop_ = true ↔ Stopping (s.phase .destructor)

theorem FlagAgrees.step (hs : FlagAgrees s) (h : ThreadPool.StepsTo s a t) : FlagAgrees t := by
  have hbefore : Stopping (s.phase .destructor) ↔ s.stop_ = true := Iff.symm hs
  by_cases hthread : Thread.destructor = a.thread
  · cases h with
    | @lock u i hfree hu =>
      cases hthread
      have hsection : (s.phase .destructor).section? = some i := by
        rcases hu with hu | hu <;> rw [hu] <;> rfl
      refine iff_of_false (fun hstop => ?_) (not_stopping_of_section (i := i) ?_)
      · exact not_stopping_of_section hsection (hs.mp hstop)
      · show (Function.update s.phase .destructor (.inside i) .destructor).section? = some i
        rw [Function.update_self, Phase.section?_inside]
    | @spurious u i hu =>
      cases hthread
      refine iff_of_false (fun hstop => ?_) (not_stopping_of_section (i := i) ?_)
      · exact not_stopping_of_section (by rw [hu]; rfl) (hs.mp hstop)
      · rw [Monitor.goto_phase_self, Phase.section?_woken]
    | destroy hd =>
      refine iff_of_false (fun hstop => ?_) (not_stopping_of_section (i := .stop) ?_)
      · have hstopping := hs.mp hstop
        rw [hd] at hstopping
        rcases hstopping with heq | ⟨joined, heq⟩ <;> cases heq
      · rw [Monitor.goto_phase_self, Phase.section?_locking]
    | setStop hd => exact iff_of_true rfl (.inl (Monitor.release_phase_self _ _ _))
    | notifyAll hd =>
      exact iff_of_true (hbefore.mp (.inl hd)) (.inr ⟨0, Monitor.goto_phase_self _ _ _⟩)
    | @join joined hjoined hd hw =>
      exact iff_of_true (hbefore.mp (.inr ⟨joined, hd⟩))
        (.inr ⟨joined + 1, Monitor.goto_phase_self _ _ _⟩)
    | _ => cases hthread
  · rw [FlagAgrees, stop_of_ne h hthread, stopping_of_ne h hthread]
    exact hs

/-- A worker only blocks while the flag is not set. -/
theorem worker_parks (h : ThreadPool.StepsTo s a t) {w : Fin n}
    (hw : (t.phase (.worker w)).Parked) : (s.phase (.worker w)).Parked ∨ s.stop_ = false := by
  by_cases hthread : Thread.worker w = a.thread
  · cases h with
    | parks hw hstop htasks => exact .inr hstop
    | lock hfree hu | spurious hu | returns hu hstop htasks | takes hu htasks | startTask hu
    | finishTask hu =>
      cases hthread
      exact absurd hw (by simp [Monitor.goto, Monitor.release])
    | _ => cases hthread
  · exact .inl (ThreadPool.parked_of_ne h hthread hw)

/-- While the destructor joins the workers, none of them is blocked. -/
def Awake (s : ThreadPool n m) : Prop :=
  ∀ joined, s.phase .destructor = .outside (.joining joined) →
    ∀ w, ¬ (s.phase (.worker w)).Parked

theorem Awake.step (hs : Awake s) (hflag : FlagAgrees s) (h : ThreadPool.StepsTo s a t) :
    Awake t := by
  -- a destructor that was joining before the step has set the flag, so no worker blocks in it
  have before {k : ℕ} (hk : s.phase .destructor = .outside (.joining k)) (w : Fin n) :
      ¬ (t.phase (.worker w)).Parked := by
    intro hw
    rcases worker_parks h hw with hparked | hopen
    · exact hs k hk w hparked
    · rw [hflag.mpr (.inr ⟨k, hk⟩)] at hopen
      cases hopen
  intro joined hd w
  by_cases hthread : Thread.destructor = a.thread
  · cases h with
    | notifyAll hu =>
      have hne : (Thread.worker w : Thread n m) ≠ .destructor := nofun
      have hworker : (s.notifyAll.goto .destructor (.outside (.joining 0))).phase (.worker w) =
          (s.phase (.worker w)).wake := Monitor.goto_phase_of_ne s.notifyAll hne _
      rw [hworker]
      exact Phase.not_parked_wake _
    | join hjoined hu hreturned => exact before hu w
    | lock hfree hu | spurious hu =>
      cases hthread
      simp only [Monitor.goto, Function.update_self, reduceCtorEq] at hd
    | destroy hu | setStop hu =>
      simp only [Monitor.goto, Monitor.release, Function.update_self, Phase.outside.injEq,
        reduceCtorEq] at hd
    | _ => cases hthread
  · exact before ((ThreadPool.outside_of_ne h hthread).mp hd) w

/-! ### The invariant -/

structure Inv (s : ThreadPool n m) : Prop where
  usual : s.toMonitor.All Usual
  served : ThreadPool.Served s
  exclusive : s.Exclusive
  flag : FlagAgrees s
  awake : Awake s

theorem inv_init : Inv (init n m).toThreadPool where
  usual u := by
    cases u with
    | worker w => trivial
    | caller c => exact usual_outside _
    | destructor => exact usual_outside _
  served := ThreadPool.served_init
  exclusive := ThreadPool.exclusive_init
  flag := iff_of_false Bool.false_ne_true (by rintro (heq | ⟨joined, heq⟩) <;> cases heq)
  awake _ hd := by cases hd

/-- Without callers of `wait`, no step of the pool loses a wake-up. -/
theorem keepsWakeups (hn : 0 < n) (hs : s.toMonitor.All Usual) (h : ThreadPool.StepsTo s a t) :
    ThreadPool.KeepsWakeups s a := by
  cases h with
  | push hc => exact hn
  | returns hw hstop htasks | parks hw hstop htasks | takes hw htasks =>
    exact fun _ _ c => (hs (.caller c)).1
  | @notifyOne c target mon hc hmon =>
    cases target with
    | none => trivial
    | some u =>
      -- whoever is woken was blocked, and only workers block
      obtain ⟨i, hu, -⟩ := Monitor.wake?_eq_some hmon
      exact .inl (worker_of_parked (hs.goto (usual_outside _)) ⟨i, hu⟩)
  | _ => trivial

theorem Inv.shared (hn : 0 < n) (hs : Inv s) (h : ThreadPool.StepsTo s a t)
    (hwait : isWait a = false) : Inv t where
  usual := usual_step hs.usual h hwait
  served := hs.served.step (keepsWakeups hn hs.usual h) h
  exclusive := ThreadPool.exclusive_step hs.exclusive h
  flag := hs.flag.step h
  awake := hs.awake.step hs.flag h

theorem Inv.refuses (hs : Inv s) {c : Fin m} (hc : s.phase (.caller c) = .inside .push)
    (hstop : s.stop_ = true) : Inv (refuse s c) where
  usual := hs.usual.release (usual_outside _)
  served := by
    -- what is promised to the queue is promised until the flag is set
    refine ⟨hs.served.workers, fun hopen => ?_, fun hopen => ?_⟩ <;>
      exact absurd (hstop.symm.trans hopen) (by decide)
  exclusive := hs.exclusive.release ⟨_, hc⟩ (Phase.not_inside_outside _)
  flag := by
    have hd : (refuse s c).phase .destructor = s.phase .destructor :=
      refuse_phase_of_ne s c nofun
    rw [FlagAgrees, hd]
    exact hs.flag
  awake := by
    intro joined hd w
    have hdestructor : (refuse s c).phase .destructor = s.phase .destructor :=
      refuse_phase_of_ne s c nofun
    have hworker : (refuse s c).phase (.worker w) = s.phase (.worker w) :=
      refuse_phase_of_ne s c nofun
    rw [hworker]
    exact hs.awake joined (hdestructor ▸ hd) w

theorem inv_of_reachable (hn : 0 < n) (h : Reachable step (init n m) p) : Inv p.toThreadPool := by
  refine reachable_invariant (I := fun p => Inv p.toThreadPool) inv_init (fun p a q hs ht => ?_) h
  cases step_cases ht with
  | shared hpool hopen hwait => exact hs.shared hn hpool hwait
  | refuses hc hstop => exact hs.refuses hc hstop

/-! ### What is left to do -/

def workerWeight : Phase WorkerAt WorkerSection → ℕ
  | .outside (.holding _) => 4
  | .outside (.running _) => 3
  | .locking _ | .woken _ => 2
  | .inside _ => 1
  | .parked _ | .outside .returned => 0

/-- A call of `enqueue` pays for the task that it puts and for the thread that it wakes. -/
def callerWeight : Phase CallerAt CallerSection → ℕ
  | .locking _ | .woken _ | .parked _ => 9
  | .inside _ => 8
  | .outside .notifying => 3
  | .outside .idle => 0

/-- The destructor pays for waking all of the `k` threads. -/
def destructorWeight (n k : ℕ) : Phase DestructorAt DestructorSection → ℕ
  | .locking _ | .woken _ | .parked _ => n + k * 2 + 3
  | .inside _ => n + k * 2 + 2
  | .outside .notifying => n + k * 2 + 1
  | .outside (.joining joined) => n - joined
  | .outside .alive => 0

def weight : ∀ t : Thread n m, Phase t.At t.Section → ℕ
  | .worker _ => workerWeight
  | .caller _ => callerWeight
  | .destructor => destructorWeight n (Fintype.card (Thread n m))

/-- A bound on the steps that are left before the pool rests, if nothing else is asked of it. -/
def left (s : ThreadPool n m) : ℕ := Monitor.load weight s.phase + 4 * s.tasks_.length

/-- A step that the pool takes on its own: no new call is made, and no thread wakes spuriously. -/
def progresses : ThreadPool.Event n m → Bool
  | .spurious _ | .enqueue _ | .wait _ | .checkEmpty _ | .destroy => false
  | _ => true

theorem weight_wake_le (u : Thread n m) (ph : Phase u.At u.Section) :
    weight u ph.wake ≤ weight u ph + 2 := by
  cases u with
  | worker w => cases ph <;> simp [Phase.wake, weight, workerWeight]
  | caller c => cases ph <;> simp [Phase.wake, weight, callerWeight]
  | destructor => cases ph <;> simp [Phase.wake, weight, destructorWeight]

/-- One thread moves. -/
theorem load_move (s : ThreadPool n m) {u : Thread n m} {ph : Phase u.At u.Section}
    (hu : s.phase u = ph) (ph' : Phase u.At u.Section) :
    Monitor.load weight (Function.update s.phase u ph') + weight u ph =
      Monitor.load weight s.phase + weight u ph' := by
  rw [← hu]
  exact Monitor.load_update weight s.phase u ph'

theorem left_lt (h : ThreadPool.StepsTo s a t) (ha : progresses a = true) : left t < left s := by
  cases h with
  | @lock u i hfree hu =>
    have hweight : weight u (s.phase u) = weight u (.inside i) + 1 := by
      rcases hu with hu | hu <;> rw [hu] <;> cases u <;> rfl
    have hload := load_move s rfl (.inside i)
    simp only [left]
    omega
  | returns hw hstop htasks =>
    have hload := load_move s hw (.outside .returned)
    simp only [weight, workerWeight] at hload
    simp only [left, Monitor.release]
    omega
  | parks hw hstop htasks =>
    have hload := load_move s hw (.parked .fetch)
    simp only [weight, workerWeight] at hload
    simp only [left, Monitor.release]
    omega
  | @takes w task rest hw htasks =>
    have hload := load_move s hw (.outside (.holding task))
    simp only [weight, workerWeight] at hload
    simp only [left, Monitor.release, htasks, List.length_cons]
    omega
  | @startTask w task hw =>
    have hload := load_move s hw (.outside (.running task))
    simp only [weight, workerWeight] at hload
    simp only [left, Monitor.goto]
    omega
  | finishTask hw =>
    have hload := load_move s hw (.locking .fetch)
    simp only [weight, workerWeight] at hload
    simp only [left, Monitor.goto]
    omega
  | push hc =>
    -- of the eight units four go to the task in the queue
    have hload := load_move s hc (.outside .notifying)
    simp only [weight, callerWeight] at hload
    simp only [left, Monitor.release, List.length_append, List.length_singleton]
    omega
  | notifyOne hc hmon =>
    -- three units are given up, and a thread that is woken takes two
    have hload := load_move s hc (.outside .idle)
    have hwake := Monitor.load_notifyOne_le weight_wake_le hmon
    simp only [weight, callerWeight] at hload
    simp only [Monitor.goto] at hwake
    simp only [left]
    omega
  | setStop hd =>
    have hload := load_move s hd (.outside .notifying)
    simp only [weight, destructorWeight] at hload
    simp only [left, Monitor.release]
    omega
  | notifyAll hd =>
    have hwoken : (s.phase .destructor).wake = .outside .notifying := by rw [hd]; rfl
    have hload := Monitor.load_update weight s.notifyAll.phase .destructor (.outside (.joining 0))
    have hwake := Monitor.load_wake_le weight_wake_le s.phase
    simp only [Monitor.notifyAll, hwoken, weight, destructorWeight] at hload
    simp only [left, Monitor.goto, Monitor.notifyAll]
    omega
  | @join joined hjoined hd hw =>
    have hload := load_move s hd (.outside (.joining (joined + 1)))
    simp only [weight, destructorWeight] at hload
    simp only [left, Monitor.goto]
    omega
  | spurious hu | enqueue hc | wait hc | waitReturns hc htasks | waitParks hc htasks
  | destroy hd => cases ha

theorem left_refuse_lt {c : Fin m} (hc : s.phase (.caller c) = .inside .push) :
    left (refuse s c) < left s := by
  have hload := load_move s hc (.outside .idle)
  simp only [weight, callerWeight] at hload
  simp only [left, refuse, Monitor.release]
  omega

theorem left_step_lt (h : p.step a = some q) (ha : progresses a = true) :
    left q.toThreadPool < left p.toThreadPool := by
  cases step_cases h with
  | shared hpool hopen hwait => exact left_lt hpool ha
  | refuses hc hstop => exact left_refuse_lt hc

/-! ### Rest -/

/-- The pool cannot take a step on its own. -/
def AtRest (p : LauncherPool n m) : Prop := ∀ a, progresses a = true → p.step a = none

/-- At rest nobody owns the mutex: its owner could go on. -/
theorem AtRest.owner_eq_none (hp : AtRest p) (hs : Inv p.toThreadPool) : p.owner = none := by
  by_contra howner
  obtain ⟨u, hu⟩ := Option.ne_none_iff_exists'.mp howner
  obtain ⟨i, hinside⟩ := (hs.exclusive u).mpr hu
  -- each thread has one step to take inside the mutex, whatever the state
  cases u with
  | worker w =>
    have hnone := Option.map_eq_none_iff.mp (hp (.fetch w) rfl)
    cases i
    simp only [ThreadPool.step, ThreadPool.fetch, hinside] at hnone
    split at hnone
    next => split at hnone <;> cases hnone
    next => cases hnone
  | caller c =>
    have hnone := hp (.push c) rfl
    cases i with
    | push =>
      simp only [step, push, ThreadPool.push, hinside] at hnone
      split at hnone <;> cases hnone
    | wait seen => exact (hs.usual (.caller c)).2 seen (by rw [hinside]; rfl)
  | destructor =>
    have hnone := Option.map_eq_none_iff.mp (hp .setStop rfl)
    cases i
    simp only [ThreadPool.step, ThreadPool.setStop, hinside] at hnone
    cases hnone

/-- Nor does anybody wait for it. -/
theorem AtRest.not_locking (hp : AtRest p) (hs : Inv p.toThreadPool) {u : Thread n m}
    {i : u.Section} : ¬ (p.phase u = .locking i ∨ p.phase u = .woken i) := by
  intro hu
  have hnone := Option.map_eq_none_iff.mp (Option.map_eq_none_iff.mp (hp (.lock u) rfl))
  have hfree := hp.owner_eq_none hs
  rcases hu with hu | hu <;> simp only [Monitor.lock?, hfree, hu] at hnone <;> cases hnone

theorem AtRest.worker (hp : AtRest p) (hs : Inv p.toThreadPool) (w : Fin n) :
    (p.phase (.worker w)).Parked ∨ p.phase (.worker w) = .outside .returned := by
  cases hw : p.phase (.worker w) with
  | outside o =>
    cases o with
    | returned => exact .inr rfl
    | holding task =>
      have hnone := Option.map_eq_none_iff.mp (hp (.startTask w) rfl)
      simp only [ThreadPool.step, ThreadPool.startTask, hw] at hnone
      cases hnone
    | running task =>
      have hnone := Option.map_eq_none_iff.mp (hp (.finishTask w) rfl)
      simp only [ThreadPool.step, ThreadPool.finishTask, hw] at hnone
      cases hnone
  | locking i => exact absurd (.inl hw) (hp.not_locking hs)
  | woken i => exact absurd (.inr hw) (hp.not_locking hs)
  | parked i => exact .inl ⟨i, rfl⟩
  | inside i =>
    have howner := (hs.exclusive (.worker w)).mp ⟨i, hw⟩
    rw [hp.owner_eq_none hs] at howner
    cases howner

/-- Whoever is to be woken, the notifier can go on. -/
theorem notifyOne_enabled (mon : Monitor (Thread n m) Thread.At Thread.Section) :
    ∃ target mon', mon.notifyOne? target = some mon' := by
  by_cases hparked : ∃ u, (mon.phase u).Parked
  · obtain ⟨u, i, hu⟩ := hparked
    refine ⟨some u, mon.goto u (.woken i), ?_⟩
    simp only [Monitor.notifyOne?, Monitor.wake?, hu]
  · refine ⟨none, mon, if_pos fun u hu => hparked ⟨u, hu⟩⟩

theorem AtRest.caller (hp : AtRest p) (hs : Inv p.toThreadPool) (c : Fin m) :
    p.phase (.caller c) = .outside .idle := by
  cases hc : p.phase (.caller c) with
  | outside o =>
    cases o with
    | idle => rfl
    | notifying =>
      -- to whom the notification goes depends on who is blocked
      obtain ⟨target, mon', hmon⟩ :=
        notifyOne_enabled (p.goto (.caller c) (.outside CallerAt.idle))
      have hnone := Option.map_eq_none_iff.mp (hp (.notifyOne c target) rfl)
      simp only [ThreadPool.step, ThreadPool.notifyOne, hc, hmon] at hnone
      cases hnone
  | locking i => exact absurd (.inl hc) (hp.not_locking hs)
  | woken i => exact absurd (.inr hc) (hp.not_locking hs)
  | parked i => exact absurd ⟨i, hc⟩ (hs.usual (.caller c)).1
  | inside i =>
    have howner := (hs.exclusive (.caller c)).mp ⟨i, hc⟩
    rw [hp.owner_eq_none hs] at howner
    cases howner

theorem AtRest.destructor (hp : AtRest p) (hs : Inv p.toThreadPool)
    (hjoined : ThreadPool.JoinedReturned p.toThreadPool) :
    p.phase .destructor = .outside .alive ∨ ThreadPool.Joined p.toThreadPool := by
  cases hd : p.phase .destructor with
  | outside o =>
    cases o with
    | alive => exact .inl rfl
    | notifying =>
      have hnone := Option.map_eq_none_iff.mp (hp .notifyAll rfl)
      simp only [ThreadPool.step, ThreadPool.notifyAllThreads, hd] at hnone
      cases hnone
    | joining joined =>
      right
      rcases Nat.lt_or_eq_of_le (hjoined joined hd).1 with hlt | rfl
      · -- the next worker is not blocked, so it has returned
        have hreturned := (hp.worker hs ⟨joined, hlt⟩).resolve_left (hs.awake joined hd _)
        have hnone := Option.map_eq_none_iff.mp (hp .join rfl)
        simp only [ThreadPool.step, ThreadPool.join, hd, dif_pos hlt, hreturned] at hnone
        cases hnone
      · exact hd
  | locking i => exact absurd (.inl hd) (hp.not_locking hs)
  | woken i => exact absurd (.inr hd) (hp.not_locking hs)
  | parked i => exact absurd ⟨i, hd⟩ (hs.usual .destructor)
  | inside i =>
    have howner := (hs.exclusive .destructor).mp ⟨i, hd⟩
    rw [hp.owner_eq_none hs] at howner
    cases howner

/-- No task is left over: some worker would be up, or would be told of it. -/
theorem AtRest.tasks_eq_nil (hp : AtRest p) (hs : Inv p.toThreadPool)
    (hsettled : p.workQueue.Settled) (hjoined : ThreadPool.JoinedReturned p.toThreadPool) :
    p.tasks_ = [] := by
  by_contra htasks
  have stays (w : Fin n) : p.phase (.worker w) ≠ .outside .returned := fun hw =>
    htasks (hsettled w (congrArg ThreadPool.stageOf hw)).2
  have hn := hs.served.workers htasks
  rcases hp.destructor hs hjoined with halive | hall
  · -- the pool is open, so a worker is up or a caller has still to notify
    have hopen : p.stop_ = false := by
      rw [Bool.eq_false_iff]
      intro hstop
      have hstopping := hs.flag.mp hstop
      rw [halive] at hstopping
      rcases hstopping with heq | ⟨joined, heq⟩ <;> cases heq
    rcases hs.served.task hopen htasks with ⟨w, hw⟩ | ⟨c, hc⟩
    · exact stays w ((hp.worker hs w).resolve_left hw)
    · rw [hp.caller hs c] at hc
      cases hc
  · -- a joined worker has returned, and left an empty queue
    exact stays ⟨0, hn⟩ ((hjoined n hall).2 _ hn)

/-- Left to itself, the pool comes to rest: from every state that it reaches, every run of its own
steps is bounded, and some run ends at rest. Wherever it rests, every task that it accepted has
been run to its end exactly once, no call of `enqueue` is left, and the destructor, if it was
called, has joined the workers. -/
theorem comes_to_rest (n m : ℕ) (hn : 0 < n) (as : List (ThreadPool.Event n m))
    (p : LauncherPool n m) (h : run step (init n m) as = some p) :
    (∀ bs q, Steps step (fun _ b => progresses b = true) p bs → run step p bs = some q →
        bs.length ≤ left p.toThreadPool) ∧
      (∃ bs q, Steps step (fun _ b => progresses b = true) p bs ∧ run step p bs = some q ∧
        AtRest q) ∧
      (AtRest p → p.finished.Perm (List.range p.enqueued) ∧
        (∀ c, p.phase (.caller c) = .outside .idle) ∧
        (p.phase .destructor = .outside .alive ∨ ThreadPool.Joined p.toThreadPool)) := by
  have hcost (r : LauncherPool n m) (b : ThreadPool.Event n m) (r' : LauncherPool n m)
      (hb : progresses b = true) (hr : r.step b = some r') :
      left r'.toThreadPool < left r.toThreadPool := left_step_lt hr hb
  refine ⟨fun bs q hbs hq => ?_, exists_run_to_rest hcost p, fun hrest => ?_⟩
  · exact (Nat.le_add_right _ _).trans (length_add_le hcost hbs hq)
  · have hreach : Reachable step (init n m) p := ⟨as, h⟩
    have hs := inv_of_reachable hn hreach
    have hjoined := joinedReturned_of_reachable hreach
    refine ⟨?_, hrest.caller hs, hrest.destructor hs hjoined⟩
    have hqueue := hrest.tasks_eq_nil hs (settled_of_reachable hreach) hjoined
    refine (accounted_of_reachable hreach).finished_perm hqueue fun w => ?_
    -- a worker at rest has no task
    have hstage : p.workQueue.stage w = .free ∨ p.workQueue.stage w = .gone := by
      rcases hrest.worker hs w with ⟨i, hw⟩ | hw
      · exact .inl (congrArg ThreadPool.stageOf hw)
      · exact .inr (congrArg ThreadPool.stageOf hw)
    rcases hstage with hw | hw <;> rw [hw] <;> exact ⟨rfl, rfl⟩

/-- One task has been put into the queue, and its caller has yet to notify: after at most nine steps
the pool rests. -/
theorem comes_to_rest_oneTask :
    ∃ p, run step (init 1 1) [.enqueue 0, .lock (.caller 0), .push 0] = some p ∧
      ∀ bs q, Steps step (fun _ b => progresses b = true) p bs → run step p bs = some q →
        bs.length ≤ 9 := by
  have hrun : (run step (init 1 1) [.enqueue 0, .lock (.caller 0), .push 0]).map
      (fun p => left p.toThreadPool) = some 9 := by rfl
  obtain ⟨p, hp, hleft⟩ := Option.map_eq_some_iff.mp hrun
  refine ⟨p, hp, fun bs q hbs hq => ?_⟩
  rw [← hleft]
  exact (comes_to_rest 1 1 Nat.one_pos _ p hp).1 bs q hbs hq

end OpenAPT.LauncherPool
