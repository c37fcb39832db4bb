import OpenAPT.ThreadManager

/-! The end of a manager. The destructor calls `joinAllThreads` with the mutex held, which
`joinAllThreads` locks again; called on its own it waits until the list of threads is empty, which
only `joinThreadByName` makes it. -/
namespace OpenAPT.ThreadManager

open EventMachine

variable {m : ℕ} {s t u : ThreadManager m} {c : Fin m}

/-- The caller locks a mutex that it owns. -/
def RequestsOwn (s : ThreadManager m) (c : Fin m) : Prop :=
  s.owner = some (.caller c) ∧ ∃ i, s.phase (.caller c) = .locking i

/-- What remains to be done when no member is called any more. -/
def remaining (s : ThreadManager m) : Event m → Option (ThreadManager m)
  | .call _ _ => none
  | a => s.step a

/-- The state `t` is reached after the caller has called `op`, the last call of all. -/
def After (s : ThreadManager m) (c : Fin m) (op : Operation) (t : ThreadManager m) : Prop :=
  ∃ u, s.call c op = some u ∧ Reachable remaining u t

/-- The caller is back, and every added thread has been joined. -/
structure Returned (s : ThreadManager m) (c : Fin m) (end_ : ManagerAt) : Prop where
  phase : s.phase (.caller c) = .outside end_
  threads : s.m_threads = []
  exited : ∀ i < s.created, s.Exited i

/-- The call gets to its end, with every added thread joined, and on the way the caller neither
locks a mutex that it owns nor waits for a list that no remaining step empties. -/
structure ShutsDown (s : ThreadManager m) (c : Fin m) (op : Operation) (end_ : ManagerAt) :
    Prop where
  no_relock : ∀ t, s.After c op t → ¬ t.RequestsOwn c
  waits : ∀ t, s.After c op t → (t.phase (.caller c)).Parked →
    ∃ u, Reachable remaining t u ∧ u.m_threads = []
  returns : ∀ t, s.After c op t → ∃ u, Reachable remaining t u ∧ u.Returned c end_

theorem remaining_eq_some {a : Event m} (h : s.remaining a = some t) :
    s.step a = some t ∧ ∀ c op, a ≠ .call c op := by
  cases a with
  | call => cases h
  | _ => exact ⟨h, nofun⟩

theorem reachable_of_remaining {s₀ : ThreadManager m} (hs : Reachable step s₀ s)
    (h : Reachable remaining s t) : Reachable step s₀ t :=
  reachable_invariant (I := Reachable step s₀) hs
    (fun _ _ _ hu hstep => hu.tail (remaining_eq_some hstep).1) h

/-- The state after a call that goes on to the lock. -/
def called (s : ThreadManager m) (c : Fin m) (op : Operation) : ThreadManager m :=
  { s with toMonitor := s.goto (.caller c) (.locking op.begins) }

@[simp] theorem called_owner (s : ThreadManager m) (c : Fin m) (op : Operation) :
    (s.called c op).owner = s.owner := rfl

@[simp] theorem called_phase (s : ThreadManager m) (c : Fin m) (op : Operation) :
    (s.called c op).phase (.caller c) = .locking op.begins :=
  s.goto_phase_self (.caller c) _

theorem called_caller (s : ThreadManager m) {c c' : Fin m} (hc : c' ≠ c) (op : Operation) :
    (s.called c op).phase (.caller c') = s.phase (.caller c') :=
  s.goto_phase_of_ne (caller_ne_caller hc) _

@[simp] theorem called_added (s : ThreadManager m) (c : Fin m) (op : Operation) (i : ℕ) :
    (s.called c op).phase (.added i) = s.phase (.added i) :=
  goto_caller_added s.toMonitor c _ i

theorem call_eq {op : Operation} (hc : s.phase (.caller c) = .outside ManagerAt.idle)
    (hop : op.answersEmpty = none) : s.call c op = some (s.called c op) := by
  simp only [call, hc, hop, called]

/-- A thread that owns the mutex is inside a critical section, or it is the destructor that waits
for the mutex, and the destructor never gets further. -/
def Guarded (owner : Option (ManagerThread m)) :
    ∀ u : ManagerThread m, Phase u.At u.Section → Prop
  | .added i, ph => owner = some (.added i) → ph.Inside
  | .caller c, ph => ph ≠ .outside .destroyed ∧
    (ph.section? = some (.joinAll true) →
      ph = .locking (.joinAll true) ∧ owner = some (.caller c)) ∧
    (owner = some (.caller c) → ph.Inside ∨ ph = .locking (.joinAll true))

theorem Guarded.wake {owner : Option (ManagerThread m)} (u : ManagerThread m)
    (ph : Phase u.At u.Section) (h : Guarded owner u ph) : Guarded owner u ph.wake := by
  cases u with
  | added i => exact fun howner => Phase.inside_wake.mpr (h howner)
  | caller c =>
    obtain ⟨hdestroyed, hnested, howns⟩ := h
    refine ⟨fun hwake => hdestroyed (Phase.wake_eq_outside.mp hwake), ?_, ?_⟩
    · intro hsection
      rw [Phase.section?_wake] at hsection
      obtain ⟨rfl, howner⟩ := hnested hsection
      exact ⟨rfl, howner⟩
    · intro howner
      rcases howns howner with hinside | rfl
      · exact .inl (Phase.inside_wake.mpr hinside)
      · exact .inr rfl

/-- When a thread is inside a critical section, no destructor waits for the mutex. -/
theorem guarded_none {mon : ManagerMonitor m} {v : ManagerThread m}
    (h : mon.All (Guarded mon.owner)) (howner : mon.owner = some v) (hv : (mon.phase v).Inside) :
    mon.All (Guarded none) := by
  intro w
  have hw := h w
  cases w with
  | added i => exact nofun
  | caller c =>
    refine ⟨hw.1, fun hsection => ?_, nofun⟩
    obtain ⟨hlocking, howner'⟩ := hw.2.1 hsection
    obtain rfl : v = .caller c := Option.some.inj (howner.symm.trans howner')
    rw [hlocking] at hv
    exact absurd hv (Phase.not_inside_locking _)

/-- The thread that gets the mutex is the only one that may hold it. -/
theorem guarded_some {mon : ManagerMonitor m} {v : ManagerThread m} {ph : Phase v.At v.Section}
    (h : mon.All (Guarded none)) (hph : Guarded (some v) v ph) (w : ManagerThread m) :
    Guarded (some v) w (Function.update mon.phase v ph w) := by
  by_cases hw : w = v
  · subst hw
    rwa [Function.update_self]
  · rw [Function.update_of_ne hw]
    have hnone := h w
    have hne : some v ≠ some w := fun heq => hw (Option.some.inj heq).symm
    cases w with
    | added i => exact fun howner => absurd howner hne
    | caller c =>
      refine ⟨hnone.1, fun hsection => ?_, fun howner => absurd howner hne⟩
      exact nomatch (hnone.2.1 hsection).2

/-- Out of a critical section the mutex is free, and what the caller goes to is no part of the
destructor. -/
theorem guarded_release {mon : ManagerMonitor m} {c : Fin m} (h : mon.All (Guarded none))
    {ph : Phase ManagerAt ManagerSection} (hdestroyed : ph ≠ .outside .destroyed)
    (hsection : ph.section? ≠ some (.joinAll true)) :
    (mon.release (.caller c) ph).All (Guarded none) :=
  h.release ⟨hdestroyed, fun heq => absurd heq hsection, nofun⟩

theorem guarded_step {a : Event m} (howned : s.Owned) (hs : s.All (Guarded s.owner))
    (h : s.step a = some t) : t.All (Guarded t.owner) := by
  have howner {v : ManagerThread m} {i : v.Section} (hv : s.phase v = .inside i) :
      s.owner = some v := howned v (by rw [hv]; exact Phase.inside_inside i)
  have hfree {v : ManagerThread m} {i : v.Section} (hv : s.phase v = .inside i) :
      s.All (Guarded none) :=
    guarded_none hs (howner hv) (by rw [hv]; exact Phase.inside_inside i)
  have houtside {c : Fin m} {o : ManagerAt} (hc : s.phase (.caller c) = .outside o) :
      s.owner ≠ some (.caller c) := by
    intro howns
    rcases (hs (.caller c)).2.2 howns with ⟨i, hinside⟩ | hlocking
    · exact nomatch hc.symm.trans hinside
    · exact nomatch hc.symm.trans hlocking
  -- the caller whose section ends was not in `joinAllThreads` with the mutex from the destructor
  have hsection {c : Fin m} {i : ManagerSection} (hc : s.phase (.caller c) = .inside i) :
      i ≠ .joinAll true := by
    rintro rfl
    obtain ⟨-, hnested, -⟩ := hs (.caller c)
    have hlocking := (hnested (by rw [hc]; rfl)).1
    exact nomatch hc.symm.trans hlocking
  cases step_cases h with
  | lock hnone ht =>
    rename_i v i
    rw [hnone] at hs
    refine guarded_some hs ?_
    cases v with
    | added j => exact fun _ => Phase.inside_inside i
    | caller c =>
      refine ⟨nofun, fun hi => ?_, fun _ => .inl (Phase.inside_inside i)⟩
      have hsec : (s.phase (.caller c)).section? = some (.joinAll true) := by
        rcases ht with ht | ht <;> rw [ht] <;> exact hi
      exact nomatch ((hs (.caller c)).2.1 hsec).2
  | spurious ht =>
    rename_i v i
    have hwoken : Phase.wake (s.phase v) = .woken i := by rw [ht]; rfl
    exact hs.goto (hwoken ▸ (hs v).wake)
  | finish hi =>
    refine hs.goto fun howns => ?_
    exact absurd (hs (.added _) howns) (by rw [hi]; exact Phase.not_inside_outside _)
  | exit hi => exact (hfree hi).release nofun
  | answers => exact hs
  | calls hc =>
    rename_i op
    refine hs.goto ⟨nofun, fun hsec => ?_, fun howns => absurd howns (houtside hc)⟩
    cases op <;> cases hsec
  | relocks _ hc _ hi =>
    refine hs.goto ⟨nofun, fun hsec => ?_, fun howns => absurd howns (houtside hc)⟩
    rcases hi with rfl | rfl <;> cases hsec
  | startsJoin hc => exact hs.goto ⟨nofun, nofun, fun _ => .inl (Phase.inside_inside _)⟩
  | refuses hc | leaves _ hc => exact guarded_release (hfree hc) nofun nofun
  | waitsForRoom hc => exact guarded_release (hfree hc) nofun nofun
  | waitsForEmpty hc =>
    refine guarded_release (hfree hc) nofun fun hsec => ?_
    exact hsection hc (Option.some.inj hsec)
  | destroyed hc => exact absurd rfl (hsection hc)
  | creates hc _ _ hmon =>
    have hgoto : (s.goto (.added s.created) (.outside AddedAt.running)).All (Guarded none) :=
      (hfree hc).goto nofun
    exact guarded_release (notifyOne?_all hmon hgoto Guarded.wake) nofun nofun
  | findsNoThread hc | joined hc | erases hc =>
    exact guarded_release ((hfree hc).notifyAll Guarded.wake) nofun nofun
  | marks _ hc _ hat _ =>
    refine guarded_release ((hfree hc).notifyAll Guarded.wake) (fun heq => ?_) nofun
    exact hat (Phase.outside.inj heq)
  | stops hc hmon =>
    rename_i c mon
    have hnested : Guarded (some (.caller c)) (.caller c) (.locking (.joinAll true)) :=
      ⟨nofun, fun _ => ⟨rfl, rfl⟩, fun _ => .inr rfl⟩
    have hall : mon.All (Guarded none) := by
      rcases hmon with rfl | rfl
      · exact hfree hc
      · exact (hfree hc).notifyAll Guarded.wake
    have howner' : mon.owner = some (.caller c) := by
      rcases hmon with rfl | rfl <;> exact howner hc
    have hsome := guarded_some hall hnested
    rw [← howner'] at hsome
    exact hsome

theorem guarded_init (m : ℕ) (maxThreads : Int32) :
    (init m maxThreads).All (Guarded (init m maxThreads).owner) := by
  intro v
  cases v with
  | added i => exact nofun
  | caller c => exact ⟨nofun, nofun, nofun⟩

theorem guarded_of_reachable {maxThreads : Int32} (hs : Reachable step (init m maxThreads) s) :
    s.Owned ∧ s.All (Guarded s.owner) :=
  reachable_invariant (I := fun s : ThreadManager m => s.Owned ∧ s.All (Guarded s.owner))
    ⟨owned_init m maxThreads, guarded_init m maxThreads⟩
    (fun _ _ _ ⟨howned, hs⟩ h => ⟨owned_step howned h, guarded_step howned hs h⟩) hs

/-- The destructor locks the mutex that it holds. -/
theorem requestsOwn_of_stop (howned : s.Owned) (h : s.step (.stop c) = some t) :
    t.RequestsOwn c := by
  cases step_cases h with
  | leaves ha => rcases ha with ha | ha | ha | ha <;> cases ha
  | marks ha => rcases ha with ha | ha <;> cases ha
  | relocks ha => rcases ha with ha | ha <;> cases ha
  | stops hc hmon =>
    have howner : s.owner = some (.caller c) := howned _ (by rw [hc]; exact Phase.inside_inside _)
    refine ⟨?_, _, Monitor.goto_phase_self ..⟩
    rcases hmon with rfl | rfl <;> exact howner

/-- The destructor never returns. -/
theorem not_shutsDown_destroy {maxThreads : Int32} (hs : Reachable step (init m maxThreads) s)
    (hc : s.phase (.caller c) = .outside ManagerAt.idle) : ¬ s.ShutsDown c .destroy .destroyed := by
  intro h
  have hcall : s.call c .destroy = some (s.called c .destroy) := call_eq hc rfl
  obtain ⟨v, hv, hreturned⟩ := h.returns _ ⟨_, hcall, [], rfl⟩
  have hreach : Reachable step (init m maxThreads) v :=
    reachable_of_remaining (hs.tail (a := .call c .destroy) hcall) hv
  have hguarded := (guarded_of_reachable hreach).2 (.caller c)
  exact hguarded.1 hreturned.phase

/-- A caller is in `joinAllThreads`, and the others are idle. -/
def Alone (c : Fin m) : ∀ u : ManagerThread m, Phase u.At u.Section → Prop
  | .added _, _ => True
  | .caller c', ph =>
    (c' = c → ph.section? = some (.joinAll false)) ∧ (c' ≠ c → ph = .outside .idle)

theorem Alone.of_section {v : ManagerThread m} {ph ph' : Phase v.At v.Section} {i : v.Section}
    (h : Alone c v ph) (hsection : ph.section? = some i) (hsection' : ph'.section? = some i) :
    Alone c v ph' := by
  cases v with
  | added i => trivial
  | caller c' =>
    refine ⟨fun hc => ?_, fun hc => ?_⟩
    · rw [hsection', ← hsection]
      exact h.1 hc
    · rw [h.2 hc] at hsection
      cases hsection

theorem Alone.inside {c' : Fin m} {i : ManagerSection} (hs : s.All (Alone c))
    (hc' : s.phase (.caller c') = .inside i) : c' = c ∧ i = .joinAll false := by
  have halone := hs (.caller c')
  rw [hc'] at halone
  by_cases heq : c' = c
  · exact ⟨heq, Option.some.inj (halone.1 heq)⟩
  · exact nomatch halone.2 heq

/-- With a thread in the list `joinAllThreads` never gets further. -/
theorem alone_step {a : Event m} (hs : s.All (Alone c)) (hthreads : s.m_threads ≠ [])
    (h : s.remaining a = some t) : t.All (Alone c) ∧ t.m_threads ≠ [] := by
  obtain ⟨hstep, hcall⟩ := remaining_eq_some h
  cases step_cases hstep with
  | lock _ ht =>
    refine ⟨hs.update ?_, hthreads⟩
    rcases ht with ht | ht
    · exact (hs _).of_section (by rw [ht]; rfl) rfl
    · exact (hs _).of_section (by rw [ht]; rfl) rfl
  | spurious ht => exact ⟨hs.goto ((hs _).of_section (by rw [ht]; rfl) rfl), hthreads⟩
  | finish => exact ⟨hs.goto trivial, hthreads⟩
  | exit => exact ⟨hs.release trivial, hthreads⟩
  | answers | calls => exact absurd rfl (hcall _ _)
  | @relocks _ c' at_ _ _ hc hat =>
    have halone := hs (.caller c')
    rw [hc] at halone
    by_cases heq : c' = c
    · exact nomatch halone.1 heq
    · exact absurd (Phase.outside.inj (halone.2 heq)) hat
  | leaves _ hc hempty => exact absurd (hempty (Alone.inside hs hc).2) hthreads
  | waitsForEmpty hc =>
    obtain ⟨rfl, hsection⟩ := Alone.inside hs hc
    refine ⟨hs.release ?_, hthreads⟩
    exact ⟨fun _ => congrArg some hsection, fun hne => absurd rfl hne⟩
  | marks _ hc hi => exact absurd (Alone.inside hs hc).2 (hi false)
  | refuses hc | creates hc | waitsForRoom hc | startsJoin hc | findsNoThread hc | joined hc
  | erases hc | destroyed hc | stops hc => exact nomatch (Alone.inside hs hc).2

theorem alone_of_reachable (hs : s.All (Alone c)) (hthreads : s.m_threads ≠ [])
    (h : Reachable remaining s t) : t.All (Alone c) ∧ t.m_threads ≠ [] :=
  reachable_invariant (I := fun t : ThreadManager m => t.All (Alone c) ∧ t.m_threads ≠ [])
    ⟨hs, hthreads⟩ (fun _ _ _ ⟨hu, hne⟩ hstep => alone_step hu hne hstep) h

/-- Before the lock of `joinAllThreads`, inside it, or back. -/
inductive JoinAllAt (c : Fin m) : Option (ManagerThread m) → Phase ManagerAt ManagerSection → Prop
  | locking : JoinAllAt c none (.locking (.joinAll false))
  | inside : JoinAllAt c (some (.caller c)) (.inside (.joinAll false))
  | returned : JoinAllAt c none (.outside .idle)

theorem JoinAllAt.section_eq {owner : Option (ManagerThread m)}
    {ph : Phase ManagerAt ManagerSection} (h : JoinAllAt c owner ph) {i : ManagerSection}
    (hi : ph.section? = some i) : i = .joinAll false := by
  cases h with
  | locking | inside => exact (Option.some.inj hi).symm
  | returned => cases hi

theorem JoinAllAt.not_parked {owner : Option (ManagerThread m)}
    {ph : Phase ManagerAt ManagerSection} (h : JoinAllAt c owner ph) : ¬ ph.Parked := by
  cases h <;> nofun

theorem JoinAllAt.idle {owner : Option (ManagerThread m)} {ph : Phase ManagerAt ManagerSection}
    (h : JoinAllAt c owner ph) {o : ManagerAt} (ho : ph = .outside o) : o = .idle := by
  cases h with
  | locking | inside => cases ho
  | returned => exact (Phase.outside.inj ho).symm

/-- With an empty list every added thread has exited, and nobody is in the way. -/
structure Ending (c : Fin m) (s : ThreadManager m) : Prop where
  threads : s.m_threads = []
  exited : ∀ i < s.created, s.Exited i
  absent : ∀ i, s.created ≤ i → s.phase (.added i) = .outside AddedAt.absent
  others : ∀ c', c' ≠ c → s.phase (.caller c') = .outside ManagerAt.idle
  at_ : JoinAllAt c s.owner (s.phase (.caller c))

theorem Ending.added_outside (hs : Ending c s) (i : ℕ) :
    ∃ o, s.phase (.added i) = .outside o ∧ o ≠ .running := by
  rcases Nat.lt_or_ge i s.created with hi | hi
  · exact ⟨_, hs.exited i hi, nofun⟩
  · exact ⟨_, hs.absent i hi, nofun⟩

/-- Only the caller itself moves on. -/
theorem Ending.of_caller (hs : Ending c s) {mon : ManagerMonitor m} {answers : List (Fin m × Bool)}
    {ph : Phase ManagerAt ManagerSection}
    (hphase : mon.phase = Function.update s.phase (.caller c) ph)
    (hat : JoinAllAt c mon.owner ph) :
    Ending c { s with toMonitor := mon, answers := answers } := by
  have hadded (i : ℕ) : mon.phase (.added i) = s.phase (.added i) := by
    rw [hphase, Function.update_of_ne (caller_ne_added c i).symm]
  have hothers (c' : Fin m) (hc' : c' ≠ c) : mon.phase (.caller c') = s.phase (.caller c') := by
    rw [hphase, Function.update_of_ne (caller_ne_caller hc')]
  exact {
    threads := hs.threads
    exited := fun i hi => (hadded i).trans (hs.exited i hi)
    absent := fun i hi => (hadded i).trans (hs.absent i hi)
    others := fun c' hc' => (hothers c' hc').trans (hs.others c' hc')
    at_ := by
      rw [hphase, Function.update_self]
      exact hat }

theorem Ending.inside (hs : Ending c s) {c' : Fin m} {i : ManagerSection}
    (hc' : s.phase (.caller c') = .inside i) : c' = c ∧ i = .joinAll false := by
  by_cases heq : c' = c
  · subst heq
    exact ⟨rfl, hs.at_.section_eq (by rw [hc']; rfl)⟩
  · exact nomatch hc'.symm.trans (hs.others c' heq)

theorem Ending.step {a : Event m} (hs : Ending c s) (h : s.remaining a = some t) : Ending c t := by
  obtain ⟨hstep, hcall⟩ := remaining_eq_some h
  cases step_cases hstep with
  | lock hfree ht =>
    rename_i v i
    cases v with
    | added j =>
      obtain ⟨o, hout, -⟩ := hs.added_outside j
      rcases ht with ht | ht <;> exact nomatch ht.symm.trans hout
    | caller c' =>
      by_cases heq : c' = c
      · subst heq
        have hi : i = .joinAll false :=
          hs.at_.section_eq (by rcases ht with ht | ht <;> rw [ht] <;> rfl)
        subst hi
        exact Ending.of_caller hs rfl .inside
      · have hidle := hs.others c' heq
        rcases ht with ht | ht <;> exact nomatch ht.symm.trans hidle
  | spurious ht =>
    rename_i v i
    cases v with
    | added j =>
      obtain ⟨o, hout, -⟩ := hs.added_outside j
      exact nomatch ht.symm.trans hout
    | caller c' =>
      by_cases heq : c' = c
      · subst heq
        exact absurd ⟨i, ht⟩ hs.at_.not_parked
      · exact nomatch ht.symm.trans (hs.others c' heq)
  | finish hi =>
    obtain ⟨o, hout, hne⟩ := hs.added_outside _
    exact absurd (Phase.outside.inj (hout.symm.trans hi)) hne
  | exit hi =>
    obtain ⟨o, hout, -⟩ := hs.added_outside _
    exact nomatch hout.symm.trans hi
  | answers | calls => exact absurd rfl (hcall _ _)
  | @relocks _ c' at_ _ _ hc hat =>
    by_cases heq : c' = c
    · subst heq
      exact absurd (hs.at_.idle hc) hat
    · exact absurd (Phase.outside.inj (hc.symm.trans (hs.others c' heq))) hat
  | leaves _ hc =>
    obtain ⟨rfl, -⟩ := hs.inside hc
    exact Ending.of_caller hs rfl .returned
  | waitsForEmpty _ hthreads => exact absurd hs.threads hthreads
  | marks _ hc hi => exact absurd (hs.inside hc).2 (hi false)
  | refuses hc | creates hc | waitsForRoom hc | startsJoin hc | findsNoThread hc | joined hc
  | erases hc | destroyed hc | stops hc => exact nomatch (hs.inside hc).2

/-- From each point the caller gets back. -/
theorem Ending.returns (hs : Ending c s) : ∃ t, Reachable remaining s t ∧ t.Returned c .idle := by
  have hleave {t : ThreadManager m} (ht : Ending c t) (hreach : Reachable remaining s t)
      (hinside : t.phase (.caller c) = .inside (.joinAll false)) :
      ∃ u, Reachable remaining s u ∧ u.Returned c .idle := by
    have hstep : t.remaining (.checkEmpty c) = some (t.leave c []) := by
      simp only [remaining, ThreadManager.step, checkEmpty, hinside, ht.threads, List.isEmpty_nil,
        ↓reduceIte, Bool.false_eq_true]
    have hend := ht.step hstep
    exact ⟨_, hreach.tail hstep, Monitor.release_phase_self .., hend.threads, hend.exited⟩
  have hat := hs.at_
  generalize howner : s.owner = owner at hat
  generalize hphase : s.phase (.caller c) = ph at hat
  cases hat with
  | returned => exact ⟨s, ⟨[], rfl⟩, hphase, hs.threads, hs.exited⟩
  | inside => exact hleave hs ⟨[], rfl⟩ hphase
  | locking =>
    obtain ⟨t, hstep, hinside⟩ : ∃ t, s.remaining (.lock (.caller c)) = some t ∧
        t.phase (.caller c) = .inside (.joinAll false) := by
      refine ⟨{ s with
        owner := some (.caller c)
        phase := Function.update s.phase (.caller c) (.inside (.joinAll false)) }, ?_,
        Function.update_self ..⟩
      simp only [remaining, ThreadManager.step, Monitor.lock?, howner, hphase, Option.map_some]
    exact hleave (hs.step hstep) ⟨[_], (run_cons_eq_some _).mpr ⟨t, hstep, rfl⟩⟩ hinside

theorem ending_of_reachable (hs : Ending c s) (h : Reachable remaining s t) : Ending c t :=
  reachable_invariant hs (fun _ _ _ => Ending.step) h

/-- In a manager with an empty list, which nobody is using, the mutex is free. -/
theorem ending_called {maxThreads : Int32} (hs : Reachable step (init m maxThreads) s)
    (hidle : ∀ c, s.phase (.caller c) = .outside ManagerAt.idle) (hthreads : s.m_threads = [])
    (c : Fin m) : Ending c (s.called c .joinAllThreads) := by
  have hinv : Inv s := inv_of_reachable hs
  obtain ⟨-, hguarded⟩ := guarded_of_reachable hs
  have hexited (i : ℕ) (hi : i < s.created) : s.Exited i := by
    rcases hinv.listed i hi with hexited | ⟨e, he, -⟩
    · exact hexited
    · rw [hthreads] at he
      exact absurd he List.not_mem_nil
  have habsent (i : ℕ) (hi : s.created ≤ i) : s.phase (.added i) = .outside AddedAt.absent :=
    (hinv.absent_iff i).mpr hi
  have hfree : s.owner = none := by
    cases howner : s.owner with
    | none => rfl
    | some v =>
      have hv := hguarded v
      cases v with
      | added i =>
        obtain ⟨j, hinside⟩ := hv howner
        rcases Nat.lt_or_ge i s.created with hi | hi
        · exact nomatch hinside.symm.trans (hexited i hi)
        · exact nomatch hinside.symm.trans (habsent i hi)
      | caller c' =>
        rcases hv.2.2 howner with ⟨j, hinside⟩ | hlocking
        · exact nomatch hinside.symm.trans (hidle c')
        · exact nomatch hlocking.symm.trans (hidle c')
  exact {
    threads := hthreads
    exited := fun i hi => (called_added s c _ i).trans (hexited i hi)
    absent := fun i hi => (called_added s c _ i).trans (habsent i hi)
    others := fun c' hc' => (called_caller s hc' _).trans (hidle c')
    at_ := by
      rw [called_owner, called_phase, hfree]
      exact .locking }

/-- When nobody is in a call, a call of `joinAllThreads` gets to its end exactly when the list is
empty. -/
theorem shutsDown_joinAllThreads_iff {maxThreads : Int32}
    (hs : Reachable step (init m maxThreads) s)
    (hidle : ∀ c, s.phase (.caller c) = .outside ManagerAt.idle) (c : Fin m) :
    s.ShutsDown c .joinAllThreads .idle ↔ s.m_threads = [] := by
  have hcall : s.call c .joinAllThreads = some (s.called c .joinAllThreads) :=
    call_eq (hidle c) rfl
  constructor
  · intro h
    by_contra hthreads
    obtain ⟨t, ht, hreturned⟩ := h.returns _ ⟨_, hcall, [], rfl⟩
    have halone : (s.called c .joinAllThreads).All (Alone c) := by
      intro v
      cases v with
      | added i => trivial
      | caller c' =>
        refine ⟨?_, fun hc' => (called_caller s hc' _).trans (hidle c')⟩
        rintro rfl
        rw [called_phase]
        rfl
    obtain ⟨halone, -⟩ := alone_of_reachable halone hthreads ht
    have hsection := (halone (.caller c)).1 rfl
    rw [hreturned.phase] at hsection
    cases hsection
  · intro hthreads
    have hafter {t : ThreadManager m} (ht : s.After c .joinAllThreads t) : Ending c t := by
      obtain ⟨u, hu, hreach⟩ := ht
      obtain rfl := Option.some.inj (hcall.symm.trans hu)
      exact ending_of_reachable (ending_called hs hidle hthreads c) hreach
    constructor
    · intro t ht ⟨howner, i, hlocking⟩
      have hat := (hafter ht).at_
      rw [howner, hlocking] at hat
      cases hat
    · exact fun t ht hparked => absurd hparked (hafter ht).at_.not_parked
    · exact fun t ht => (hafter ht).returns

/-- The destructor never gets to its end; `joinAllThreads` does, when nobody is in a call, if there
is no thread to join. -/
theorem shutsDown_iff {maxThreads : Int32} (hs : Reachable step (init m maxThreads) s)
    (hc : s.phase (.caller c) = .outside ManagerAt.idle) :
    ¬ s.ShutsDown c .destroy .destroyed ∧
      ((∀ c, s.phase (.caller c) = .outside ManagerAt.idle) →
        (s.ShutsDown c .joinAllThreads .idle ↔ s.m_threads = [])) :=
  ⟨not_shutsDown_destroy hs hc, fun hidle => shutsDown_joinAllThreads_iff hs hidle c⟩

theorem shutsDown_iff_init :
    ¬ (init 1 10).ShutsDown 0 .destroy .destroyed ∧
      ((∀ c, (init 1 10).phase (.caller c) = .outside ManagerAt.idle) →
        ((init 1 10).ShutsDown 0 .joinAllThreads .idle ↔ (init 1 10).m_threads = [])) :=
  shutsDown_iff ⟨[], rfl⟩ rfl

/-- The destructor of a manager that was never used locks the mutex that it owns. -/
theorem destroy_relocks : ¬ (init 1 10).ShutsDown 0 .destroy .destroyed := by
  intro h
  have hrun : (run remaining ((init 1 10).called 0 .destroy)
      [.lock (.caller 0), .stop 0]).isSome := by
    decide
  have hafter : (init 1 10).After 0 .destroy
      ((run remaining ((init 1 10).called 0 .destroy) [.lock (.caller 0), .stop 0]).get hrun) :=
    ⟨_, rfl, _, (Option.some_get hrun).symm⟩
  exact h.no_relock _ hafter ⟨rfl, _, rfl⟩

end OpenAPT.ThreadManager
