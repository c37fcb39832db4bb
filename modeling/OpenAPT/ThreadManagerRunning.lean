import OpenAPT.Lib.PastTime
import OpenAPT.ThreadManagerAdmission

/-! What `isThreadRunning` answers. It reads a flag that `sleepThreadByName` and `joinThread` set
and reset, while the end of a thread's function leaves it alone. They reset it through a reference
that they took before they gave the mutex up, and that may refer to another entry by then. -/
namespace OpenAPT.ThreadManager

open EventMachine PastTime

variable {m : ℕ} {s t : ThreadManager m}

/-- The name of the thread that a step adds. -/
def addedName (s : ThreadManager m) : Event m → Option Bytes
  | .admitThread c _ =>
    match s.phase (.caller c) with
    | .inside (ManagerSection.add name) =>
      if s.m_stopFlag = false ∧ s.hasRoom = true then some name else none
    | _ => none
  | .lock _ | .spurious _ | .finish _ | .exit _ | .call _ _ | .find _ | .joined _ | .resetAgain _
  | .unflag _ | .startSleep _ | .endSleep _ | .unsleep _ | .readFlag _ | .checkEmpty _ | .stop _ =>
    none

/-- The names of the threads that a run adds, in order. -/
def addedNames (s : ThreadManager m) : List (Event m) → List Bytes
  | [] => []
  | a :: as =>
    match s.step a with
    | some t => (s.addedName a).toList ++ t.addedNames as
    | none => []

/-- The step ends a call `isThreadRunning(name)`, which returns `b`. -/
def Answers (s : ThreadManager m) (a : Event m) (name : Bytes) (b : Bool) : Prop :=
  ∃ c t, s.step a = some t ∧ t.answers = s.answers ++ [(c, b)] ∧
    (a = .call c (.isThreadRunning name) ∨
      a = .readFlag c ∧ s.phase (.caller c) = .inside (ManagerSection.running name))

/-- The step uses a reference to an element that is gone, because the vector has moved or the
element was erased: what the program does from there on is not defined. -/
def Undefined (s : ThreadManager m) : Event m → Prop
  | .resetAgain c => s.phase (.caller c) = .outside ManagerAt.resetting ∧ s.refs c = none
  | .unflag c => s.phase (.caller c) = .inside ManagerSection.rejoin ∧ s.refs c = none
  | .unsleep c => s.phase (.caller c) = .inside ManagerSection.awake ∧ s.refs c = none
  | _ => False

/-- The program is defined, and the answer says whether a thread with the name was added whose
function has not returned. -/
def RightAnswer (names : List Bytes) (s : ThreadManager m) (a : Event m) : Prop :=
  ¬ s.Undefined a ∧
    ∀ name b, s.Answers a name b → (b = true ↔ ∃ i, names[i]? = some name ∧ s.Running i)

/-- The step marks the entry of a thread: `sleepThreadByName` finds it, or `joinThread` gets to the
end of its first part. -/
def Marks (s : ThreadManager m) (id : ℕ) : Event m → Prop
  | .startSleep c => ∃ name e, s.phase (.caller c) = .inside (ManagerSection.sleep name) ∧
    s.m_threads.find? (fun e => e.name = name) = some e ∧ e.id = id
  | .find c => ∃ name e, s.phase (.caller c) = .inside (ManagerSection.join name) ∧
    s.m_threads.find? (fun e => e.name = name) = some e ∧ e.thread = false ∧ e.id = id
  | .joined c => s.phase (.caller c) = .inside (ManagerSection.joining id)
  | _ => False

/-- The second part of a call takes back the mark of the entry that its reference refers to now,
whichever it was when the reference was taken. -/
def Unmarks (s : ThreadManager m) (id : ℕ) : Event m → Prop
  | .unsleep c | .unflag c => ∃ e, s.referent c = some e ∧ e.id = id
  | _ => False

/-- In the steps so far the entry of the thread was marked, and that mark was not taken back. -/
def Marked (s₀ : ThreadManager m) (as : List (Event m)) (id : ℕ) : Prop :=
  Since (fun x => ¬ x.1.Unmarks id x.2) (fun _ x => x.1.Marks id x.2) (trace step s₀ as)

/-- What makes an answer right: the program is defined, and the entry that `isThreadRunning` finds
is marked exactly if the function of its thread has returned. -/
def ReadsRight (marked : ℕ → Prop) (s : ThreadManager m) (a : Event m) : Prop :=
  ¬ s.Undefined a ∧
    ∀ c name e, a = .readFlag c → s.phase (.caller c) = .inside (ManagerSection.running name) →
      s.m_threads.find? (fun e => e.name = name) = some e → (s.Running e.id ↔ ¬ marked e.id)

/-- What a step does to the list of threads, and to their marks. -/
inductive Writes (s : ThreadManager m) (a : Event m) (t : ThreadManager m) : Prop
  | keeps (hname : s.addedName a = none) (hcreated : t.created = s.created)
      (hmarks : ∀ e ∈ s.m_threads, s.Marks e.id a → e.flag = true)
      (hmem : ∀ id, s.Marks id a → id < s.created)
      (hunmarks : ∀ id, ¬ s.Unmarks id a) (hthreads : t.m_threads = s.m_threads)
  | adds {name : Bytes} (hname : s.addedName a = some name) (hcreated : t.created = s.created + 1)
      (hmarks : ∀ id, ¬ s.Marks id a) (hunmarks : ∀ id, ¬ s.Unmarks id a)
      (hthreads : t.m_threads = s.m_threads ++ [⟨s.created, true, name, false⟩])
  | sets {id : ℕ} {f : ThreadEntry → ThreadEntry} (hname : s.addedName a = none)
      (hcreated : t.created = s.created) (hid : id < s.created)
      (hmarks : ∀ id', s.Marks id' a ↔ id' = id) (hunmarks : ∀ id, ¬ s.Unmarks id a)
      (hf : ∀ e, (f e).id = e.id ∧ (f e).name = e.name ∧ (f e).flag = true)
      (hthreads : t.m_threads = setEntry id f s.m_threads)
  | clears {p : ℕ} (hname : s.addedName a = none) (hcreated : t.created = s.created)
      (hmarks : ∀ id, ¬ s.Marks id a)
      (hunmarks : ∀ id, s.Unmarks id a ↔ ∃ e, s.m_threads[p]? = some e ∧ e.id = id)
      (hthreads : t.m_threads.Sublist (s.m_threads.modify p ThreadEntry.unflagged))

/-- The events that neither look for an entry nor write to one. -/
def Event.Still : Event m → Prop
  | .admitThread _ _ | .find _ | .joined _ | .unflag _ | .startSleep _ | .unsleep _ => False
  | _ => True

theorem still_step {a : Event m} (ha : a.Still) (h : s.step a = some t) :
    t.m_threads = s.m_threads ∧ t.created = s.created := by
  cases step_cases h with
  | refuses | creates | waitsForRoom | startsJoin | findsNoThread | joined | erases => exact ha.elim
  | marks ha' => rcases ha' with rfl | rfl <;> exact ha.elim
  | _ => exact ⟨rfl, rfl⟩

theorem writes_still {a : Event m} (ha : a.Still) (h : s.step a = some t) : Writes s a t := by
  obtain ⟨hthreads, hcreated⟩ := still_step ha h
  cases a with
  | admitThread | find | joined | unflag | startSleep | unsleep => exact ha.elim
  | _ => exact .keeps rfl hcreated (fun _ _ h => h.elim) (fun _ h => h.elim) (fun _ h => h) hthreads

/-- The step of `addThread` adds a thread if it is not stopped and has room. -/
theorem addedName_admitThread {c : Fin m} {target : Option (Fin m)} {name : Bytes}
    (hc : s.phase (.caller c) = .inside (ManagerSection.add name)) :
    s.addedName (.admitThread c target) =
      if s.m_stopFlag = false ∧ s.hasRoom = true then some name else none := by
  simp only [addedName, hc]

theorem writes_admitThread {c : Fin m} {target : Option (Fin m)}
    (h : s.step (.admitThread c target) = some t) : Writes s (.admitThread c target) t := by
  have hkeeps (hname : s.addedName (.admitThread c target) = none)
      (hcreated : t.created = s.created) (hthreads : t.m_threads = s.m_threads) :
      Writes s (.admitThread c target) t :=
    .keeps hname hcreated (fun _ _ h => h.elim) (fun _ h => h.elim) (fun _ h => h) hthreads
  cases step_cases h with
  | refuses hc hstop =>
    refine hkeeps ((addedName_admitThread hc).trans (if_neg fun h => ?_)) rfl rfl
    exact Bool.false_ne_true (h.1.symm.trans hstop)
  | waitsForRoom hc _ hroom =>
    refine hkeeps ((addedName_admitThread hc).trans (if_neg fun h => ?_)) rfl rfl
    exact Bool.false_ne_true (hroom.symm.trans h.2)
  | creates hc hstop hroom =>
    exact .adds ((addedName_admitThread hc).trans (if_pos ⟨hstop, hroom⟩)) rfl
      (fun _ h => h) (fun _ h => h) rfl
  | leaves ha => rcases ha with ha | ha | ha | ha <;> cases ha
  | marks ha | relocks ha => rcases ha with ha | ha <;> cases ha

/-- What the first part of `joinThread` writes to the entry. -/
theorem writes_reset {a : Event m} {c : Fin m} {id : ℕ} (hname : s.addedName a = none)
    (hid : id < s.created) (hmarks : ∀ id', s.Marks id' a ↔ id' = id)
    (hunmarks : ∀ id, ¬ s.Unmarks id a) : Writes s a (s.reset c id) :=
  .sets (f := fun e => { e with thread := false, flag := true }) hname rfl hid hmarks hunmarks
    (fun _ => ⟨rfl, rfl, rfl⟩) rfl

theorem writes_find {c : Fin m} (hs : Inv s) (h : s.step (.find c) = some t) :
    Writes s (.find c) t := by
  simp only [step, find] at h
  split at h
  next name hc =>
    have hmarks (id : ℕ) : s.Marks id (.find c) ↔
        ∃ e, s.m_threads.find? (fun e => e.name = name) = some e ∧ e.thread = false ∧ e.id = id := by
      simp only [Marks, hc, Phase.inside.injEq, ManagerSection.join.injEq, exists_and_left,
        exists_eq_left']
    -- nothing is marked unless the entry has no thread any more
    have hkeeps (hnone : ∀ id, ¬ s.Marks id (.find c)) (hcreated : t.created = s.created)
        (hthreads : t.m_threads = s.m_threads) : Writes s (.find c) t :=
      .keeps rfl hcreated (fun e _ h => absurd h (hnone e.id)) (fun id h => absurd h (hnone id))
        (fun _ h => h) hthreads
    split at h
    next hfind =>
      obtain rfl := Option.some.inj h
      refine hkeeps (fun id hid => ?_) rfl rfl
      obtain ⟨e, he, -⟩ := (hmarks id).mp hid
      cases hfind.symm.trans he
    next e hfind =>
      split at h
      next hthread =>
        obtain rfl := Option.some.inj h
        refine hkeeps (fun id hid => ?_) rfl rfl
        obtain ⟨e', he', hthread', -⟩ := (hmarks id).mp hid
        obtain rfl := Option.some.inj (hfind.symm.trans he')
        exact Bool.false_ne_true (hthread'.symm.trans hthread)
      next hthread =>
        obtain rfl := Option.some.inj h
        have hthread : e.thread = false := by simpa using hthread
        refine writes_reset rfl (hs.known e (List.mem_of_find?_eq_some hfind)) (fun id => ?_)
          fun _ h => h
        simp only [hmarks, hfind, Option.some.injEq, exists_eq_left', hthread, true_and]
        exact eq_comm
  next => cases h

theorem writes_joined {c : Fin m} (hs : Inv s) (h : s.step (.joined c) = some t) :
    Writes s (.joined c) t := by
  simp only [step, joined] at h
  split at h
  next id hc =>
    split at h
    next hid =>
      obtain rfl := Option.some.inj h
      refine writes_reset rfl ?_ (fun id' => ?_) fun _ h => h
      · by_contra hle
        have habsent := (hs.absent_iff id).mpr (not_lt.mp hle)
        cases habsent.symm.trans hid
      · simp only [Marks, hc, Phase.inside.injEq, ManagerSection.joining.injEq]
        exact eq_comm
    next => cases h
  next => cases h

theorem writes_startSleep {c : Fin m} (hs : Inv s)
    (hdistinct : (s.m_threads.map ThreadEntry.id).Nodup)
    (h : s.step (.startSleep c) = some t) : Writes s (.startSleep c) t := by
  simp only [step, startSleep] at h
  split at h
  next name hc =>
    have hmarks (id : ℕ) : s.Marks id (.startSleep c) ↔
        ∃ e, s.m_threads.find? (fun e => e.name = name) = some e ∧ e.id = id := by
      simp only [Marks, hc, Phase.inside.injEq, ManagerSection.sleep.injEq, exists_and_left,
        exists_eq_left']
    split at h
    next hfind =>
      obtain rfl := Option.some.inj h
      have hnone (id : ℕ) : ¬ s.Marks id (.startSleep c) := by
        intro hid
        obtain ⟨e, he, -⟩ := (hmarks id).mp hid
        cases hfind.symm.trans he
      exact .keeps rfl rfl (fun e _ h => absurd h (hnone e.id)) (fun id h => absurd h (hnone id))
        (fun _ h => h) rfl
    next e hfind =>
      have he : e ∈ s.m_threads := List.mem_of_find?_eq_some hfind
      have hmarks' (id : ℕ) : s.Marks id (.startSleep c) ↔ id = e.id := by
        simp only [hmarks, hfind, Option.some.injEq, exists_eq_left']
        exact eq_comm
      split at h
      next hflag =>
        -- the caller finds the flag set and returns
        obtain rfl := Option.some.inj h
        refine .keeps rfl rfl (fun e' he' hid => ?_) (fun id hid => ?_) (fun _ h => h) rfl
        · rw [List.inj_on_of_nodup_map hdistinct he' he ((hmarks' e'.id).mp hid)]
          exact hflag
        · rw [(hmarks' id).mp hid]
          exact hs.known e he
      next =>
        obtain rfl := Option.some.inj h
        exact .sets (f := fun e => { e with flag := true }) rfl rfl (hs.known e he) hmarks'
          (fun _ h => h) (fun _ => ⟨rfl, rfl, rfl⟩) rfl
  next => cases h

/-- The mark that is taken back is that of the element at the position. -/
theorem unmarks_iff {c : Fin m} {p id : ℕ} (hp : s.refs c = some p) :
    (∃ e, s.referent c = some e ∧ e.id = id) ↔ ∃ e, s.m_threads[p]? = some e ∧ e.id = id := by
  rw [referent, hp, Option.bind_some]

theorem writes_unsleep {c : Fin m} (h : s.step (.unsleep c) = some t) :
    Writes s (.unsleep c) t := by
  simp only [step, unsleep] at h
  split at h
  next hc =>
    split at h
    next p hp =>
      obtain rfl := Option.some.inj h
      exact .clears rfl rfl (fun _ h => h) (fun _ => unmarks_iff hp) (List.Sublist.refl _)
    next => cases h
  next => cases h

theorem writes_unflag {c : Fin m} (h : s.step (.unflag c) = some t) : Writes s (.unflag c) t := by
  simp only [step, unflag] at h
  split at h
  next hc =>
    split at h
    next p hp =>
      obtain rfl := Option.some.inj h
      exact .clears rfl rfl (fun _ h => h) (fun _ => unmarks_iff hp) List.filter_sublist
    next => cases h
  next => cases h

theorem writes_of_step {a : Event m} (hs : Inv s)
    (hdistinct : (s.m_threads.map ThreadEntry.id).Nodup) (h : s.step a = some t) :
    Writes s a t := by
  cases a with
  | admitThread c target => exact writes_admitThread h
  | find c => exact writes_find hs h
  | joined c => exact writes_joined hs h
  | startSleep c => exact writes_startSleep hs hdistinct h
  | unsleep c => exact writes_unsleep h
  | unflag c => exact writes_unflag h
  | _ => exact writes_still trivial h

theorem lt_created_of_running (hs : Inv s) {i : ℕ} (hi : s.Running i) : i < s.created := by
  by_contra hle
  have habsent := (hs.absent_iff i).mpr (not_lt.mp hle)
  cases habsent.symm.trans hi

theorem not_running_of_exited {i : ℕ} (hi : s.Exited i) : ¬ s.Running i := by
  intro hrunning
  cases hi.symm.trans hrunning

theorem mem_setEntry {id : ℕ} {f : ThreadEntry → ThreadEntry} {threads : List ThreadEntry}
    {e : ThreadEntry} (he : e ∈ setEntry id f threads) :
    ∃ e₀ ∈ threads, (e₀.id = id ∧ e = f e₀) ∨ (e₀.id ≠ id ∧ e = e₀) := by
  obtain ⟨e₀, he₀, rfl⟩ := List.mem_map.mp he
  by_cases hid : e₀.id = id
  · exact ⟨e₀, he₀, .inl ⟨hid, if_pos hid⟩⟩
  · exact ⟨e₀, he₀, .inr ⟨hid, if_neg hid⟩⟩

theorem mem_modify_unflagged {p : ℕ} {threads : List ThreadEntry} {e : ThreadEntry}
    (he : e ∈ threads.modify p ThreadEntry.unflagged) :
    ∃ i e₀, threads[i]? = some e₀ ∧ (i = p ∧ e = e₀.unflagged ∨ i ≠ p ∧ e = e₀) := by
  obtain ⟨i, hi⟩ := List.mem_iff_getElem?.mp he
  rw [List.getElem?_modify] at hi
  obtain ⟨e₀, he₀, rfl⟩ := Option.map_eq_some_iff.mp hi
  by_cases hip : i = p
  · exact ⟨i, e₀, he₀, .inl ⟨hip, by rw [if_pos hip.symm]⟩⟩
  · exact ⟨i, e₀, he₀, .inr ⟨hip, by rw [if_neg (Ne.symm hip)]⟩⟩

/-- The names under which the threads were added, by the numbers of the threads. -/
structure Named (s : ThreadManager m) (names : List Bytes) : Prop where
  length : names.length = s.created
  entry : ∀ e ∈ s.m_threads, names[e.id]? = some e.name

theorem Named.step {names : List Bytes} {a : Event m} (hs : Inv s) (hnamed : Named s names)
    (hwrites : Writes s a t) : Named t (names ++ (s.addedName a).toList) := by
  cases hwrites with
  | keeps hname hcreated _ _ _ hthreads =>
    rw [hname, Option.toList_none, List.append_nil]
    exact ⟨hnamed.length.trans hcreated.symm, hthreads ▸ hnamed.entry⟩
  | adds hname hcreated _ _ hthreads =>
    rw [hname, Option.toList_some]
    constructor
    · rw [List.length_append, List.length_singleton, hnamed.length, hcreated]
    · intro e he
      rw [hthreads] at he
      rcases List.mem_append.mp he with he | he
      · rw [List.getElem?_append_left (hnamed.length ▸ hs.known e he)]
        exact hnamed.entry e he
      · rw [List.mem_singleton.mp he, ← hnamed.length, List.getElem?_concat_length]
  | sets hname hcreated _ _ _ hf hthreads =>
    rw [hname, Option.toList_none, List.append_nil]
    refine ⟨hnamed.length.trans hcreated.symm, fun e he => ?_⟩
    obtain ⟨e₀, he₀, ⟨-, rfl⟩ | ⟨-, rfl⟩⟩ := mem_setEntry (hthreads ▸ he)
    · rw [(hf e₀).1, (hf e₀).2.1]
      exact hnamed.entry e₀ he₀
    · exact hnamed.entry _ he₀
  | clears hname hcreated _ _ hthreads =>
    rw [hname, Option.toList_none, List.append_nil]
    refine ⟨hnamed.length.trans hcreated.symm, fun e he => ?_⟩
    obtain ⟨i, e₀, he₀, ⟨-, rfl⟩ | ⟨-, rfl⟩⟩ := mem_modify_unflagged (hthreads.subset he)
    · exact hnamed.entry e₀ (List.mem_of_getElem? he₀)
    · exact hnamed.entry _ (List.mem_of_getElem? he₀)

/-- No two entries are of one thread. -/
theorem distinct_step {a : Event m} (hs : Inv s)
    (hdistinct : (s.m_threads.map ThreadEntry.id).Nodup)
    (hwrites : Writes s a t) : (t.m_threads.map ThreadEntry.id).Nodup := by
  cases hwrites with
  | keeps _ _ _ _ _ hthreads => rwa [hthreads]
  | adds _ _ _ _ hthreads =>
    rw [hthreads, List.map_append, List.map_singleton]
    refine hdistinct.append (List.nodup_singleton _) fun id hid hid' => ?_
    obtain ⟨e, he, rfl⟩ := List.mem_map.mp hid
    have hlt := hs.known e he
    rw [List.mem_singleton.mp hid'] at hlt
    exact lt_irrefl _ hlt
  | sets _ _ _ _ _ hf hthreads =>
    have hids : t.m_threads.map ThreadEntry.id = s.m_threads.map ThreadEntry.id := by
      rw [hthreads, setEntry, List.map_map]
      apply List.map_congr_left
      intro e _
      simp only [Function.comp_apply]
      split
      · exact (hf e).1
      · rfl
    rwa [hids]
  | @clears p _ _ _ _ hthreads =>
    have hids : (s.m_threads.modify p ThreadEntry.unflagged).map ThreadEntry.id =
        s.m_threads.map ThreadEntry.id := by
      have heq := congrArg (List.map ThreadEntry.id) (map_unflagged_modify p s.m_threads)
      rwa [List.map_map, List.map_map] at heq
    exact (hids ▸ hdistinct).sublist (hthreads.map _)

/-- All that is known of a state that a run reaches: the names that it has added, and that the flag
of an entry says whether the entry is marked. -/
structure Known (s₀ : ThreadManager m) (as : List (Event m)) (s : ThreadManager m) : Prop where
  inv : Inv s
  named : Named s (s₀.addedNames as)
  distinct : (s.m_threads.map ThreadEntry.id).Nodup
  marked_lt : ∀ id, Marked s₀ as id → id < s.created
  flag_iff : ∀ e ∈ s.m_threads, e.flag = true ↔ Marked s₀ as e.id

theorem known_init (m : ℕ) (maxThreads : Int32) :
    Known (init m maxThreads) [] (init m maxThreads) where
  inv := inv_init m maxThreads
  named := ⟨rfl, fun _ he => absurd he List.not_mem_nil⟩
  distinct := List.nodup_nil
  marked_lt := fun _ h => absurd h not_since_nil
  flag_iff := fun _ he => absurd he List.not_mem_nil

theorem addedNames_append {as bs : List (Event m)} (h : run step s as = some t) :
    s.addedNames (as ++ bs) = s.addedNames as ++ t.addedNames bs := by
  induction as generalizing s with
  | nil =>
    obtain rfl : s = t := by simpa using h
    rfl
  | cons a as ih =>
    obtain ⟨u, hu, h⟩ := (run_cons_eq_some _).mp h
    simp only [List.cons_append, addedNames, hu, ih h, List.append_assoc]

theorem marked_concat {s₀ : ThreadManager m} {as : List (Event m)} {a : Event m}
    (h : run step s₀ as = some s) (id : ℕ) :
    Marked s₀ (as ++ [a]) id ↔ s.Marks id a ∨ ¬ s.Unmarks id a ∧ Marked s₀ as id :=
  since_trace_concat h

/-- An entry that a step does not write to keeps its flag and its mark. -/
theorem Known.flag_of_untouched {s₀ : ThreadManager m} {as : List (Event m)} {a : Event m}
    (hs : Known s₀ as s) (h : run step s₀ as = some s) {e : ThreadEntry} (he : e ∈ s.m_threads)
    (hmarks : s.Marks e.id a → e.flag = true) (hunmarks : ¬ s.Unmarks e.id a) :
    e.flag = true ↔ Marked s₀ (as ++ [a]) e.id := by
  rw [marked_concat h]
  constructor
  · exact fun hflag => .inr ⟨hunmarks, (hs.flag_iff e he).mp hflag⟩
  · rintro (hmark | ⟨-, hmarked⟩)
    · exact hmarks hmark
    · exact (hs.flag_iff e he).mpr hmarked

/-- The flag of every entry is set exactly if the entry is marked, after one more step. -/
theorem Known.flag_step {s₀ : ThreadManager m} {as : List (Event m)} {a : Event m}
    (hs : Known s₀ as s) (h : run step s₀ as = some s) (hwrites : Writes s a t) {e : ThreadEntry}
    (he : e ∈ t.m_threads) : e.flag = true ↔ Marked s₀ (as ++ [a]) e.id := by
  cases hwrites with
  | keeps _ _ hmarks _ hunmarks hthreads =>
    rw [hthreads] at he
    exact hs.flag_of_untouched h he (hmarks e he) (hunmarks _)
  | adds _ _ hmarks hunmarks hthreads =>
    rw [hthreads] at he
    rcases List.mem_append.mp he with he | he
    · exact hs.flag_of_untouched h he (fun hmark => absurd hmark (hmarks _)) (hunmarks _)
    · -- the number of the new thread was not in use before
      rw [List.mem_singleton.mp he, marked_concat h]
      refine iff_of_false Bool.false_ne_true ?_
      rintro (hmark | ⟨-, hmarked⟩)
      · exact hmarks _ hmark
      · exact lt_irrefl _ (hs.marked_lt _ hmarked)
  | sets _ _ _ hmarks hunmarks hf hthreads =>
    obtain ⟨e₀, he₀, ⟨hid, rfl⟩ | ⟨hid, rfl⟩⟩ := mem_setEntry (hthreads ▸ he)
    · rw [(hf e₀).1, marked_concat h]
      exact iff_of_true (hf e₀).2.2 (.inl ((hmarks _).mpr hid))
    · exact hs.flag_of_untouched h he₀ (fun hmark => absurd ((hmarks _).mp hmark) hid) (hunmarks _)
  | @clears p _ _ hmarks hunmarks hthreads =>
    obtain ⟨i, e₀, he₀, ⟨hip, rfl⟩ | ⟨hip, rfl⟩⟩ := mem_modify_unflagged (hthreads.subset he)
    · rw [marked_concat h]
      refine iff_of_false Bool.false_ne_true ?_
      rintro (hmark | ⟨hunmark, -⟩)
      · exact hmarks _ hmark
      · exact hunmark ((hunmarks _).mpr ⟨e₀, hip ▸ he₀, rfl⟩)
    · refine hs.flag_of_untouched h (List.mem_of_getElem? he₀)
        (fun hmark => absurd hmark (hmarks _)) fun hunmark => hip ?_
      -- the entry at the position that is written is another one
      obtain ⟨e', he', hid⟩ := (hunmarks _).mp hunmark
      have hi : (s.m_threads.map ThreadEntry.id)[i]? = some e.id := by
        rw [List.getElem?_map, he₀, Option.map_some]
      have hp : (s.m_threads.map ThreadEntry.id)[p]? = some e.id := by
        rw [List.getElem?_map, he', Option.map_some, hid]
      have hlt : i < (s.m_threads.map ThreadEntry.id).length :=
        (List.getElem?_eq_some_iff.mp hi).1
      exact (List.getElem?_inj hlt hs.distinct).mp (hi.trans hp.symm)

theorem Known.step {s₀ : ThreadManager m} {as : List (Event m)} {a : Event m}
    (hs : Known s₀ as s) (h : run step s₀ as = some s) (hstep : s.step a = some t) :
    Known s₀ (as ++ [a]) t := by
  have hwrites : Writes s a t := writes_of_step hs.inv hs.distinct hstep
  have hnames : s₀.addedNames (as ++ [a]) = s₀.addedNames as ++ (s.addedName a).toList := by
    simp only [addedNames_append h, addedNames, hstep, List.append_nil]
  refine ⟨hs.inv.step hstep, hnames ▸ hs.named.step hs.inv hwrites,
    distinct_step hs.inv hs.distinct hwrites, fun id hid => ?_,
    fun e he => hs.flag_step h hwrites he⟩
  have hle : s.created ≤ t.created := by
    cases hwrites with
    | adds _ hcreated => omega
    | keeps _ hcreated | sets _ hcreated | clears _ hcreated => exact hcreated.ge
  rcases (marked_concat h id).mp hid with hmark | ⟨-, hmarked⟩
  · refine lt_of_lt_of_le ?_ hle
    cases hwrites with
    | keeps _ _ _ hmem => exact hmem id hmark
    | adds _ _ hmarks | clears _ _ hmarks => exact absurd hmark (hmarks id)
    | sets _ _ hlt hmarks => exact (hmarks id).mp hmark ▸ hlt
  · exact (hs.marked_lt id hmarked).trans_le hle

theorem known_of_run {maxThreads : Int32} {as : List (Event m)}
    (h : run step (init m maxThreads) as = some s) : Known (init m maxThreads) as s := by
  induction as using List.reverseRecOn generalizing s with
  | nil =>
    obtain rfl : init m maxThreads = s := by simpa using h
    exact known_init m maxThreads
  | append_singleton as a ih =>
    obtain ⟨u, hu, hstep⟩ := run_concat_eq_some.mp h
    exact (ih hu).step hu hstep

/-- A thread of a name that runs is in the list under that name. -/
theorem Known.listed {s₀ : ThreadManager m} {as : List (Event m)} (hs : Known s₀ as s) {i : ℕ}
    {name : Bytes} (hi : (s₀.addedNames as)[i]? = some name) (hrunning : s.Running i) :
    ∃ e ∈ s.m_threads, e.id = i ∧ e.name = name := by
  rcases hs.inv.listed i (lt_created_of_running hs.inv hrunning) with hexited | ⟨e, he, rfl, -⟩
  · exact absurd hrunning (not_running_of_exited hexited)
  · exact ⟨e, he, rfl, Option.some.inj ((hs.named.entry e he).symm.trans hi)⟩

theorem answers_call {c : Fin m} {op : Operation} {name : Bytes} {b : Bool}
    (h : s.Answers (.call c op) name b) : b = false ∧ s.m_threads = [] := by
  obtain ⟨c', t, hstep, hanswers, heq | ⟨heq, -⟩⟩ := h
  · cases heq
    simp only [step, call] at hstep
    split at hstep
    next =>
      split at hstep <;> cases hstep
      next answer _ hanswer hthreads =>
        cases hanswer
        have hb := List.append_cancel_left hanswers
        rw [List.map_singleton] at hb
        cases hb
        exact ⟨rfl, hthreads⟩
      next =>
        have hlen : s.answers.length = (s.answers ++ [(c, b)]).length :=
          congrArg List.length hanswers
        rw [List.length_append, List.length_singleton] at hlen
        omega
    next => cases hstep
  · cases heq

theorem answers_readFlag_iff {c : Fin m} {name : Bytes} {b : Bool} :
    s.Answers (.readFlag c) name b ↔
      s.phase (.caller c) = .inside (ManagerSection.running name) ∧
        b = ((s.m_threads.find? fun e => e.name = name).elim false fun e => !e.flag) := by
  constructor
  · rintro ⟨c', t, hstep, hanswers, heq | ⟨heq, hc⟩⟩
    · cases heq
    · cases heq
      refine ⟨hc, ?_⟩
      simp only [step, readFlag, hc] at hstep
      cases hfind : s.m_threads.find? fun e => e.name = name with
      | none =>
        simp only [hfind] at hstep
        cases hstep
        cases List.append_cancel_left hanswers
        rfl
      | some e =>
        simp only [hfind] at hstep
        cases hstep
        cases List.append_cancel_left hanswers
        rfl
  · rintro ⟨hc, rfl⟩
    cases hfind : s.m_threads.find? fun e => e.name = name with
    | none =>
      have hstep : s.step (.readFlag c) = some (s.leave c [false]) := by
        simp only [step, readFlag, hc, hfind]
      exact ⟨c, s.leave c [false], hstep, rfl, .inr ⟨rfl, hc⟩⟩
    | some e =>
      have hstep : s.step (.readFlag c) = some (s.leave c [!e.flag]) := by
        simp only [step, readFlag, hc, hfind]
      exact ⟨c, s.leave c [!e.flag], hstep, rfl, .inr ⟨rfl, hc⟩⟩

/-- The read of a flag gives the right answer exactly if the thread of the entry runs while the
entry is not marked. -/
theorem rightAnswer_readFlag_iff {s₀ : ThreadManager m} {as : List (Event m)} (hs : Known s₀ as s)
    (hnames : (s₀.addedNames as).Nodup) (name : Bytes) :
    (((s.m_threads.find? fun e => e.name = name).elim false fun e => !e.flag) = true ↔
        ∃ i, (s₀.addedNames as)[i]? = some name ∧ s.Running i) ↔
      ∀ e, s.m_threads.find? (fun e => e.name = name) = some e →
        (s.Running e.id ↔ ¬ Marked s₀ as e.id) := by
  cases hfind : s.m_threads.find? fun e => e.name = name with
  | none =>
    refine iff_of_true (iff_of_false Bool.false_ne_true fun ⟨i, hi, hrunning⟩ => ?_) nofun
    obtain ⟨e, he, -, hname⟩ := hs.listed hi hrunning
    exact List.find?_eq_none.mp hfind e he (decide_eq_true hname)
  | some e =>
    have he : e ∈ s.m_threads := List.mem_of_find?_eq_some hfind
    have hname : e.name = name := by simpa using List.find?_some hfind
    have hid : (s₀.addedNames as)[e.id]? = some name := hname ▸ hs.named.entry e he
    -- the names are distinct, so that only this thread can be meant
    have hrunning : (∃ i, (s₀.addedNames as)[i]? = some name ∧ s.Running i) ↔ s.Running e.id := by
      constructor
      · intro ⟨i, hi, hi'⟩
        have hlt : i < (s₀.addedNames as).length :=
          hs.named.length ▸ lt_created_of_running hs.inv hi'
        obtain rfl : i = e.id := (List.getElem?_inj hlt hnames).mp (hi.trans hid.symm)
        exact hi'
      · exact fun hi => ⟨e.id, hid, hi⟩
    have hflag : (!e.flag) = true ↔ ¬ Marked s₀ as e.id := by
      rw [← hs.flag_iff e he, Bool.not_eq_true', Bool.not_eq_true]
    simp only [Option.elim_some, hrunning, hflag, Option.some.injEq, forall_eq']
    exact iff_comm

theorem rightAnswer_iff {s₀ : ThreadManager m} {as : List (Event m)} {a : Event m}
    (hs : Known s₀ as s) (hnames : (s₀.addedNames as).Nodup) :
    RightAnswer (s₀.addedNames as) s a ↔ ReadsRight (Marked s₀ as) s a := by
  apply and_congr_right
  intro _
  cases a with
  | call c op =>
    refine iff_of_true (fun name b h => ?_) nofun
    obtain ⟨rfl, hthreads⟩ := answers_call h
    refine iff_of_false Bool.false_ne_true fun ⟨i, hi, hrunning⟩ => ?_
    obtain ⟨e, he, -⟩ := hs.listed hi hrunning
    rw [hthreads] at he
    exact absurd he List.not_mem_nil
  | readFlag c =>
    simp only [answers_readFlag_iff]
    constructor
    · intro h c' name e hc' hc hfind
      cases hc'
      exact (rightAnswer_readFlag_iff hs hnames name).mp (h name _ ⟨hc, rfl⟩) e hfind
    · rintro h name b ⟨hc, rfl⟩
      exact (rightAnswer_readFlag_iff hs hnames name).mpr fun e => h c name e rfl hc
  | _ =>
    refine iff_of_true (fun name b h => ?_) nofun
    obtain ⟨c, t, -, -, heq | ⟨heq, -⟩⟩ := h <;> cases heq

/-- In a run that adds distinct names, the answers of `isThreadRunning` are right exactly when each
flag that it reads belongs to an unmarked entry of a running thread or to a marked entry of one that
has returned, and no reference is used whose element is gone. -/
theorem isThreadRunning_right_iff {maxThreads : Int32} {as : List (Event m)}
    (hnames : ((init m maxThreads).addedNames as).Nodup) :
    (∀ before a after u, as = before ++ a :: after →
        run step (init m maxThreads) before = some u →
          RightAnswer ((init m maxThreads).addedNames before) u a) ↔
      ∀ before a after u, as = before ++ a :: after →
        run step (init m maxThreads) before = some u →
          ReadsRight (Marked (init m maxThreads) before) u a := by
  refine forall_congr' fun before => forall_congr' fun a => forall_congr' fun after =>
    forall_congr' fun u => forall_congr' fun heq => forall_congr' fun hu => ?_
  rw [heq, addedNames_append hu] at hnames
  exact rightAnswer_iff (known_of_run hu) (List.nodup_append.mp hnames).1

/-- A caller adds a thread and asks for it while it runs. -/
def asks (c : Fin m) (name : Bytes) : List (Event m) :=
  addsThread c name ++ [.call c (.isThreadRunning name), .lock (.caller c), .readFlag c]

theorem isThreadRunning_right_asks :
    (∀ before a after u, asks 0 (bytes "worker") = before ++ a :: after →
        run step (init 1 10) before = some u →
          RightAnswer ((init 1 10).addedNames before) u a) ↔
      ∀ before a after u, asks 0 (bytes "worker") = before ++ a :: after →
        run step (init 1 10) before = some u →
          ReadsRight (Marked (init 1 10) before) u a :=
  isThreadRunning_right_iff (by decide)

/-- A caller adds a thread, whose function returns, and is about to read the flag. -/
def asksAfterReturn (c : Fin m) (name : Bytes) : List (Event m) :=
  addsThread c name ++ [.finish 0, .call c (.isThreadRunning name), .lock (.caller c)]

/-- A caller adds a thread and sleeps on it; another one is about to read the flag. -/
def asksInSleep (c c' : Fin m) (name : Bytes) : List (Event m) :=
  addsThread c name ++ [.call c (.sleepThreadByName name), .lock (.caller c), .startSleep c,
    .call c' (.isThreadRunning name), .lock (.caller c')]

/-- The thread has returned and is said to run, or it runs and is said not to. -/
theorem isThreadRunning_not_right :
    (∃ u : ThreadManager 2, run step (init 2 10) (asksAfterReturn 0 (bytes "worker")) = some u ∧
      ((init 2 10).addedNames (asksAfterReturn 0 (bytes "worker") ++ [.readFlag 0])).Nodup ∧
      u.Answers (.readFlag 0) (bytes "worker") true ∧ ∀ i, ¬ u.Running i) ∧
    ∃ u : ThreadManager 2, run step (init 2 10) (asksInSleep 0 1 (bytes "worker")) = some u ∧
      ((init 2 10).addedNames (asksInSleep 0 1 (bytes "worker") ++ [.readFlag 1])).Nodup ∧
      u.Answers (.readFlag 1) (bytes "worker") false ∧ u.Running 0 := by
  constructor
  · have hrun : (run step (init 2 10) (asksAfterReturn 0 (bytes "worker"))).map (fun u =>
        decide (u.phase (.caller 0) = .inside (ManagerSection.running (bytes "worker")) ∧
          u.m_threads = [⟨0, true, bytes "worker", false⟩] ∧ u.created = 1 ∧ ¬ u.Running 0)) =
        some true := by decide
    obtain ⟨u, hu, hfacts⟩ := Option.map_eq_some_iff.mp hrun
    obtain ⟨hphase, hthreads, hcreated, hreturned⟩ := of_decide_eq_true hfacts
    refine ⟨u, hu, by decide, ?_, fun i hi => ?_⟩
    · rw [answers_readFlag_iff, hthreads]
      exact ⟨hphase, by decide⟩
    · have hlt := lt_created_of_running (known_of_run hu).inv hi
      obtain rfl : i = 0 := by omega
      exact hreturned hi
  · have hrun : (run step (init 2 10) (asksInSleep 0 1 (bytes "worker"))).map (fun u =>
        decide (u.phase (.caller 1) = .inside (ManagerSection.running (bytes "worker")) ∧
          u.m_threads = [⟨0, true, bytes "worker", true⟩] ∧ u.Running 0)) = some true := by decide
    obtain ⟨u, hu, hfacts⟩ := Option.map_eq_some_iff.mp hrun
    obtain ⟨hphase, hthreads, hrunning⟩ := of_decide_eq_true hfacts
    refine ⟨u, hu, by decide, ?_, hrunning⟩
    rw [answers_readFlag_iff, hthreads]
    exact ⟨hphase, by decide⟩

end OpenAPT.ThreadManager
