import OpenAPT.ThreadManager

/-! `joinThread` blocks in `std::thread::join` with the mutex held, and the last thing that the
joined thread does is to lock the mutex. -/
namespace OpenAPT.ThreadManager

open EventMachine

variable {m : ℕ} {s t : ThreadManager m}

/-- A caller that holds the mutex is blocked in the join of a thread that waits for the mutex. -/
def JoinDeadlock (s : ThreadManager m) : Prop :=
  ∃ c id, s.owner = some (.caller c) ∧
    s.phase (.caller c) = .inside (ManagerSection.joining id) ∧
    s.phase (.added id) = .locking AddedSection.epilogue

/-- The entry whose thread `find` would join. -/
def joins (s : ThreadManager m) (c : Fin m) : Option ThreadEntry :=
  match s.phase (.caller c) with
  | .inside (ManagerSection.join name) =>
    (s.m_threads.find? fun e => e.name = name).filter ThreadEntry.thread
  | _ => none

/-- A thread is joined only after it has exited. -/
def FindsExited (s : ThreadManager m) : Event m → Prop
  | .find c => ∀ e ∈ s.joins c, s.Exited e.id
  | _ => True

instance (s : ThreadManager m) (i : ℕ) : Decidable (s.Exited i) :=
  inferInstanceAs (Decidable (s.phase (.added i) = .outside AddedAt.exited))

instance (s : ThreadManager m) : (a : Event m) → Decidable (s.FindsExited a)
  | .find c => inferInstanceAs (Decidable (∀ e ∈ s.joins c, s.Exited e.id))
  | .lock _ | .spurious _ | .finish _ | .exit _ | .call _ _ | .admitThread _ _ | .joined _
  | .resetAgain _ | .unflag _ | .startSleep _ | .endSleep _ | .unsleep _ | .readFlag _
  | .checkEmpty _ | .stop _ =>
    isTrue trivial

/-- A caller is at a join only inside the mutex, and what it joins has exited. -/
def JoinsOnly (exited : ℕ → Prop) :
    ∀ u : ManagerThread m, Phase u.At u.Section → Prop
  | .added _, _ => True
  | .caller _, ph =>
    ∀ id, ph.section? = some (ManagerSection.joining id) → ph = .inside (.joining id) ∧ exited id

theorem JoinsOnly.wake {exited : ℕ → Prop} (u : ManagerThread m) (ph : Phase u.At u.Section)
    (h : JoinsOnly exited u ph) : JoinsOnly exited u ph.wake := by
  cases u with
  | added i => trivial
  | caller c =>
    intro id hid
    rw [Phase.section?_wake] at hid
    obtain ⟨rfl, hexited⟩ := h id hid
    exact ⟨rfl, hexited⟩

/-- A thread that waits for the mutex goes into a critical section that it has not been in. -/
theorem JoinsOnly.inside {exited : ℕ → Prop} {u : ManagerThread m} {ph : Phase u.At u.Section}
    {i : u.Section} (h : JoinsOnly exited u ph) (hsection : ph.section? = some i)
    (hinside : ¬ ph.Inside) (ph' : Phase u.At u.Section) (hsection' : ph'.section? = some i) :
    JoinsOnly exited u ph' := by
  cases u with
  | added i => trivial
  | caller c =>
    intro id hid
    rw [hsection', ← hsection] at hid
    rw [(h id hid).1] at hinside
    exact absurd (Phase.inside_inside _) hinside

theorem joinsOnly_step {a : Event m} (hs : Inv s) (hjoins : s.All (JoinsOnly s.Exited))
    (ha : FindsExited s a) (h : s.step a = some t) : t.All (JoinsOnly t.Exited) := by
  have hsteps := step_cases h
  have hjoins' : s.All (JoinsOnly t.Exited) := by
    refine hjoins.imp fun u ph hu => ?_
    cases u with
    | added i => trivial
    | caller c => exact fun id hid => (hu id hid).imp_right (hsteps.exited hs)
  cases hsteps with
  | lock _ ht =>
    refine hjoins'.update ?_
    rcases ht with ht | ht
    · exact (hjoins' _).inside (by rw [ht]; rfl) (by rw [ht]; exact nofun) _ rfl
    · exact (hjoins' _).inside (by rw [ht]; rfl) (by rw [ht]; exact nofun) _ rfl
  | spurious ht =>
    exact hjoins'.goto ((hjoins' _).inside (by rw [ht]; rfl) (by rw [ht]; exact nofun) _ rfl)
  | finish => exact hjoins'.goto trivial
  | exit => exact hjoins'.release trivial
  | answers => exact hjoins'
  | calls =>
    rename_i op _
    exact hjoins'.goto fun id hid => by cases op <;> cases hid
  | refuses | leaves | destroyed => exact hjoins'.release nofun
  | waitsForRoom | waitsForEmpty => exact hjoins'.release nofun
  | relocks _ _ _ hi => exact hjoins'.goto fun id hid => by rcases hi with rfl | rfl <;> cases hid
  | creates _ _ _ hmon =>
    exact (notifyOne?_all hmon (hjoins'.goto trivial) JoinsOnly.wake).release nofun
  | startsJoin hc hfind hthread =>
    rename_i c name e
    refine hjoins'.goto fun id hid => ?_
    cases hid
    refine ⟨rfl, ha e ?_⟩
    simp only [joins, hc, hfind, Option.mem_def, Option.filter_some, hthread, ↓reduceIte]
  | findsNoThread | joined => exact (hjoins'.notifyAll JoinsOnly.wake).release nofun
  | erases | marks => exact (hjoins'.notifyAll JoinsOnly.wake).release nofun
  | stops _ hmon =>
    rcases hmon with rfl | rfl
    · exact hjoins'.goto nofun
    · exact (hjoins'.notifyAll JoinsOnly.wake).goto nofun

theorem joinsOnly_init (m : ℕ) (maxThreads : Int32) :
    (init m maxThreads).All (JoinsOnly (init m maxThreads).Exited) := by
  intro u
  cases u with
  | added i => trivial
  | caller c => exact nofun

theorem not_joinDeadlock (hjoins : s.All (JoinsOnly s.Exited)) : ¬ s.JoinDeadlock := by
  intro ⟨c, id, _, hc, hid⟩
  have hexited : s.Exited id := (hjoins (.caller c) id (by rw [hc]; rfl)).2
  exact nomatch hid.symm.trans hexited

/-- If every join starts after the exit of the thread, no join deadlocks. -/
theorem no_joinDeadlock {maxThreads : Int32} {as : List (Event m)}
    (h : Steps step FindsExited (init m maxThreads) as) :
    States step (fun s => ¬ s.JoinDeadlock) (init m maxThreads) as := by
  have hstates : States step (fun s => Inv s ∧ s.All (JoinsOnly s.Exited))
      (init m maxThreads) as := by
    apply states_of_steps _ ⟨inv_init m maxThreads, joinsOnly_init m maxThreads⟩ h
    exact fun s a t ⟨hs, hjoins⟩ ha hstep => ⟨hs.step hstep, joinsOnly_step hs hjoins ha hstep⟩
  exact states_imp (fun s hs => not_joinDeadlock hs.2) hstates

/-- A caller adds a thread and joins it. Here the thread has exited when it is found. -/
def joinsAfterExit (c : Fin m) (name : Bytes) : List (Event m) :=
  addsThread c name ++ [.call c (.joinThreadByName name), .finish 0, .lock (.added 0), .exit 0,
    .lock (.caller c), .find c, .joined c, .resetAgain c, .lock (.caller c), .unflag c]

/-- Here its function has not returned then. -/
def joinsBeforeExit (c : Fin m) (name : Bytes) : List (Event m) :=
  addsThread c name ++ [.call c (.joinThreadByName name), .lock (.caller c), .find c, .finish 0]

theorem no_joinDeadlock_after_exit :
    (run step (init 1 10) (joinsAfterExit 0 (bytes "worker"))).isSome ∧
      States step (fun s => ¬ s.JoinDeadlock) (init 1 10) (joinsAfterExit 0 (bytes "worker")) :=
  ⟨by decide, no_joinDeadlock (by decide)⟩

theorem joinsBeforeExit_deadlocks : ∃ s : ThreadManager 1,
    run step (init 1 10) (joinsBeforeExit 0 (bytes "worker")) = some s ∧ s.JoinDeadlock := by
  have hrun : (run step (init 1 10) (joinsBeforeExit 0 (bytes "worker"))).isSome := by decide
  refine ⟨(run step (init 1 10) (joinsBeforeExit 0 (bytes "worker"))).get hrun,
    (Option.some_get hrun).symm, 0, 0, rfl, rfl, rfl⟩

/-- An added thread never waits for the condition variable. -/
def Settled : ∀ u : ManagerThread m, Phase u.At u.Section → Prop
  | .added _, ph => ¬ ph.Parked ∧ ¬ ph.Woken
  | .caller _, _ => True

theorem Settled.wake (u : ManagerThread m) (ph : Phase u.At u.Section) (h : Settled u ph) :
    Settled u ph.wake := by
  cases u with
  | caller c => trivial
  | added i =>
    cases ph with
    | parked j => exact absurd ⟨j, rfl⟩ h.1
    | outside | locking | inside | woken => exact h

theorem settled_step {a : Event m} (hs : s.All Settled) (h : s.step a = some t) :
    t.All Settled := by
  cases step_cases h with
  | lock =>
    rename_i u i _ _
    apply hs.update
    cases u
    · exact ⟨nofun, nofun⟩
    · trivial
  | spurious ht =>
    rename_i u i
    have hu : Settled u (.parked i) := ht ▸ hs u
    apply hs.goto
    cases u
    · exact absurd ⟨i, rfl⟩ hu.1
    · trivial
  | finish => exact hs.goto ⟨nofun, nofun⟩
  | exit => exact hs.release ⟨nofun, nofun⟩
  | answers => exact hs
  | calls | startsJoin | relocks => exact hs.goto trivial
  | refuses | leaves | waitsForRoom | waitsForEmpty | destroyed => exact hs.release trivial
  | creates _ _ _ hmon =>
    exact (notifyOne?_all hmon (hs.goto ⟨nofun, nofun⟩) Settled.wake).release trivial
  | findsNoThread | joined | erases | marks =>
    exact (hs.notifyAll Settled.wake).release trivial
  | stops _ hmon =>
    rcases hmon with rfl | rfl
    · exact hs.goto trivial
    · exact (hs.notifyAll Settled.wake).goto trivial

theorem settled_init (m : ℕ) (maxThreads : Int32) : (init m maxThreads).All Settled := by
  intro u
  cases u with
  | added i => exact ⟨nofun, nofun⟩
  | caller c => trivial

theorem joins_eq_some {c : Fin m} {e : ThreadEntry} (h : s.joins c = some e) :
    ∃ name, s.phase (.caller c) = .inside (ManagerSection.join name) ∧
      s.m_threads.find? (fun e => e.name = name) = some e ∧ e.thread = true := by
  unfold joins at h
  split at h
  next name hc => exact ⟨name, hc, Option.filter_eq_some_iff.mp h⟩
  next => cases h

/-- A join that starts before the exit of its thread is in a deadlock, at once or when the function
of the thread has returned. -/
theorem joinDeadlock_of_find {maxThreads : Int32} {c : Fin m}
    (hs : Reachable step (init m maxThreads) s) (h : s.step (.find c) = some t)
    (ha : ¬ FindsExited s (.find c)) :
    t.JoinDeadlock ∨ ∃ i u, t.step (.finish i) = some u ∧ u.JoinDeadlock := by
  have hinv : Inv s := inv_of_reachable hs
  have howned : s.Owned := owned_of_reachable hs
  have hsettled : s.All Settled :=
    reachable_invariant (I := fun s : ThreadManager m => s.All Settled)
      (settled_init m maxThreads) (fun _ _ _ => settled_step) hs
  obtain ⟨e, he, hexited⟩ : ∃ e, s.joins c = some e ∧ ¬ s.Exited e.id := by
    simpa [FindsExited] using ha
  obtain ⟨name, hc, hfind, hthread⟩ := joins_eq_some he
  have howner : s.owner = some (.caller c) := howned _ (by rw [hc]; exact Phase.inside_inside _)
  simp only [step, find, hc, hfind, hthread, ↓reduceIte, Option.some.injEq] at h
  subst h
  have hne := (caller_ne_added c e.id).symm
  -- the thread is in its function or waits for the mutex, which the caller holds
  cases hphase : s.phase (.added e.id) with
  | outside at_ =>
    cases at_ with
    | absent =>
      have hle := (hinv.absent_iff e.id).mp hphase
      have hlt := hinv.known e (List.mem_of_find?_eq_some hfind)
      omega
    | running =>
      refine .inr ⟨e.id, { s with
        toMonitor := (s.goto (.caller c) (.inside (ManagerSection.joining e.id))).goto
          (.added e.id) (.locking AddedSection.epilogue) }, ?_, c, e.id, howner, ?_, ?_⟩
      · simp only [step, finish, goto_caller_added, hphase]
      · exact (Monitor.goto_phase_of_ne _ hne.symm _).trans (Monitor.goto_phase_self ..)
      · exact Monitor.goto_phase_self ..
    | exited => exact absurd hphase hexited
  | locking i =>
    refine .inl ⟨c, e.id, howner, Monitor.goto_phase_self .., ?_⟩
    rw [goto_caller_added, hphase]
  | inside i =>
    have howner' : s.owner = some (.added e.id) :=
      howned _ (by rw [hphase]; exact Phase.inside_inside _)
    exact absurd (Option.some.inj (howner.symm.trans howner')) hne.symm
  | parked i => exact absurd ⟨i, hphase⟩ (hsettled (.added e.id)).1
  | woken i => exact absurd ⟨i, hphase⟩ (hsettled (.added e.id)).2

end OpenAPT.ThreadManager
