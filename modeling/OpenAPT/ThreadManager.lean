import OpenAPT.Bytes
import OpenAPT.Lib.EventMachine
import OpenAPT.Lib.Monitor

/-! `ThreadManager`: the threads that it added, each with its function and then its epilogue, and
`m` threads that call its members, on one mutex and one condition variable. -/
namespace OpenAPT

/-- The added threads are numbered in the order in which they are added. -/
inductive ManagerThread (m : ℕ)
  | added (i : ℕ)
  | caller (c : Fin m)
  deriving DecidableEq

/-- An added thread before it is added, in its function, and at its end. -/
inductive AddedAt
  | absent
  | running
  | exited
  deriving DecidableEq

/-- The lock that an added thread takes when its function has returned. -/
inductive AddedSection
  | epilogue
  deriving DecidableEq

/-- A caller outside the mutex: in the sleep of `sleepThreadByName`, or before the second `reset` of
`joinThread`, where it still has a reference to an element of the vector. -/
inductive ManagerAt
  | idle
  | sleeping
  | resetting
  | destroyed
  deriving DecidableEq

/-- The critical sections of the members. `joinThread` has two: in the first one the caller is
blocked in `std::thread::join` with the mutex held, and it locks the mutex again for the second.
So has `sleepThreadByName`.
`joinAll` is `joinAllThreads`, called on its own or from the destructor, which `stop` is the block
of. -/
inductive ManagerSection
  | add (name : Bytes)
  | join (name : Bytes)
  | joining (id : ℕ)
  | rejoin
  | sleep (name : Bytes)
  | awake
  | running (name : Bytes)
  | joinAll (fromDestructor : Bool)
  | stop
  deriving DecidableEq

abbrev ManagerThread.At {m : ℕ} : ManagerThread m → Type
  | added _ => AddedAt
  | caller _ => ManagerAt

abbrev ManagerThread.Section {m : ℕ} : ManagerThread m → Type
  | added _ => AddedSection
  | caller _ => ManagerSection

/-- `m_mtx` with `m_cv`. -/
abbrev ManagerMonitor (m : ℕ) := Monitor (ManagerThread m) ManagerThread.At ManagerThread.Section

/-- An element of `m_threads`: whether it still has its `std::thread`, the name and the flag. It is
told by the number of its thread, also after the vector has moved it. -/
structure ThreadEntry where
  id : ℕ
  thread : Bool
  name : Bytes
  flag : Bool
  deriving DecidableEq

def ThreadEntry.unflagged (e : ThreadEntry) : ThreadEntry := { e with flag := false }

/-- The members of the manager, with the capacity of the vector, the number of threads that were
added, and what the calls that return a truth value have returned. `refs` is for the reference `t`
that a caller took before it gave the mutex up: the position of the element that it refers to now,
or `none` when the element is gone from there. -/
structure ThreadManager (m : ℕ) extends
    Monitor (ManagerThread m) ManagerThread.At ManagerThread.Section where
  m_threads : List ThreadEntry
  capacity : ℕ
  refs : Fin m → Option ℕ
  m_stopFlag : Bool
  m_maxThreads : Int32
  created : ℕ
  answers : List (Fin m × Bool)

namespace ThreadManager

variable {m : ℕ}

def init (m : ℕ) (maxThreads : Int32) : ThreadManager m where
  owner := none
  phase := fun
    | .added _ => .outside AddedAt.absent
    | .caller _ => .outside ManagerAt.idle
  m_threads := []
  capacity := 0
  refs := fun _ => none
  m_stopFlag := false
  m_maxThreads := maxThreads
  created := 0
  answers := []

/-- The limit as `m_threads.size()` is compared with it: the `int` becomes a `size_t`. -/
def limit (s : ThreadManager m) : ℕ := (s.m_maxThreads.toInt % UInt64.size).toNat

def hasRoom (s : ThreadManager m) : Bool := s.m_threads.length < s.limit

/-- Writes to the entry of a thread. -/
def setEntry (id : ℕ) (f : ThreadEntry → ThreadEntry) (threads : List ThreadEntry) :
    List ThreadEntry :=
  threads.map fun e => if e.id = id then f e else e

/-- The reference of a caller to the entry of a thread, which it has just found. -/
def refer (s : ThreadManager m) (c : Fin m) (id : ℕ) : Fin m → Option ℕ :=
  Function.update s.refs c (s.m_threads.findIdx? fun e => e.id = id)

/-- The element that the reference of a caller refers to now. -/
def referent (s : ThreadManager m) (c : Fin m) : Option ThreadEntry :=
  (s.refs c).bind fun p => s.m_threads[p]?

/-- `notify_one`: only callers wait for the condition variable. -/
def notifyOne? (mon : ManagerMonitor m) (target : Option (Fin m)) : Option (ManagerMonitor m) :=
  match target with
  | some c => mon.wake? (.caller c)
  | none => if ∀ c, ¬ (mon.phase (.caller c)).Parked then some mon else none

/-- The public members. -/
inductive Operation
  | addThread (name : Bytes)
  | joinThreadByName (name : Bytes)
  | sleepThreadByName (name : Bytes)
  | isThreadRunning (name : Bytes)
  | joinAllThreads
  | destroy

/-- The critical section that a member begins with. -/
def Operation.begins : Operation → ManagerSection
  | addThread name => .add name
  | joinThreadByName name => .join name
  | sleepThreadByName name => .sleep name
  | isThreadRunning name => .running name
  | joinAllThreads => .joinAll false
  | destroy => .stop

/-- The members that return at once from a manager without threads, and what they return. -/
def Operation.answersEmpty : Operation → Option (List Bool)
  | joinThreadByName _ => some []
  | sleepThreadByName _ | isThreadRunning _ => some [false]
  | addThread _ | joinAllThreads | destroy => none

def call (s : ThreadManager m) (c : Fin m) (op : Operation) : Option (ThreadManager m) :=
  match s.phase (.caller c) with
  | .outside ManagerAt.idle =>
    match op.answersEmpty, s.m_threads with
    | some answer, [] => some { s with answers := s.answers ++ answer.map (c, ·) }
    | _, _ => some { s with toMonitor := s.goto (.caller c) (.locking op.begins) }
  | _ => none

/-- The function of an added thread returns, or throws what the thread catches. -/
def finish (s : ThreadManager m) (i : ℕ) : Option (ThreadManager m) :=
  match s.phase (.added i) with
  | .outside AddedAt.running => some { s with
      toMonitor := s.goto (.added i) (.locking AddedSection.epilogue) }
  | _ => none

def exit (s : ThreadManager m) (i : ℕ) : Option (ThreadManager m) :=
  match s.phase (.added i) with
  | .inside AddedSection.epilogue => some { s with
      toMonitor := s.release (.added i) (.outside AddedAt.exited) }
  | _ => none

/-- A caller leaves the critical section. -/
def leave (s : ThreadManager m) (c : Fin m) (answer : List Bool) : ThreadManager m :=
  { s with
    toMonitor := s.release (.caller c) (.outside ManagerAt.idle)
    answers := s.answers ++ answer.map (c, ·) }

/-- The thread and the entry that `addThread` makes. A vector that is full moves to a new memory of
twice the size, and no reference to an element is valid any more. -/
def create (s : ThreadManager m) (c : Fin m) (name : Bytes) (mon : ManagerMonitor m) :
    ThreadManager m :=
  let fits : Bool := s.m_threads.length < s.capacity
  { s with
    toMonitor := mon.release (.caller c) (.outside ManagerAt.idle)
    m_threads := s.m_threads ++ [⟨s.created, true, name, false⟩]
    capacity := if fits then s.capacity else max 1 (2 * s.capacity)
    refs := if fits then s.refs else fun _ => none
    created := s.created + 1 }

/-- `addThread` with the mutex: the wait, the test of the flag, the new thread. -/
def admitThread (s : ThreadManager m) (c : Fin m) (target : Option (Fin m)) :
    Option (ThreadManager m) :=
  match s.phase (.caller c) with
  | .inside (ManagerSection.add name) =>
    if s.m_stopFlag then some (s.leave c [])
    else if s.hasRoom then
      (notifyOne? (s.goto (.added s.created) (.outside AddedAt.running)) target).map
        (s.create c name)
    else some { s with toMonitor := s.release (.caller c) (.parked (ManagerSection.add name)) }
  | _ => none

/-- The end of the first part of `joinThread`: the pointer is reset, the flag set, and the mutex
given up. Until here the entry is where it was found, as the caller had the mutex all the time. -/
def reset (s : ThreadManager m) (c : Fin m) (id : ℕ) : ThreadManager m :=
  { s with
    toMonitor := s.notifyAll.release (.caller c) (.outside ManagerAt.resetting)
    m_threads := setEntry id (fun e => { e with thread := false, flag := true }) s.m_threads
    refs := s.refer c id }

/-- `joinThreadByName` up to the call of `std::thread::join`, if there is a thread to join. -/
def find (s : ThreadManager m) (c : Fin m) : Option (ThreadManager m) :=
  match s.phase (.caller c) with
  | .inside (ManagerSection.join name) =>
    match s.m_threads.find? fun e => e.name = name with
    | none => some (s.leave c [])
    | some e =>
      if e.thread then some { s with
        toMonitor := s.goto (.caller c) (.inside (ManagerSection.joining e.id)) }
      else some (s.reset c e.id)
  | _ => none

/-- `std::thread::join` returns when the thread has exited. -/
def joined (s : ThreadManager m) (c : Fin m) : Option (ThreadManager m) :=
  match s.phase (.caller c) with
  | .inside (ManagerSection.joining id) =>
    match s.phase (.added id) with
    | .outside AddedAt.exited => some (s.reset c id)
    | _ => none
  | _ => none

/-- The second `reset` of `joinThread`, without the mutex. There is no next state if nothing is left
where `t` refers to, nor if there is an entry now that has a `std::thread`: the program ends when
one is destroyed that was not joined. -/
def resetAgain (s : ThreadManager m) (c : Fin m) : Option (ThreadManager m) :=
  match s.phase (.caller c) with
  | .outside ManagerAt.resetting =>
    match s.referent c with
    | some e =>
      if e.thread then none
      else some { s with toMonitor := s.goto (.caller c) (.locking ManagerSection.rejoin) }
    | none => none
  | _ => none

/-- A caller wakes all that wait and leaves with a new list of threads. -/
def publish (s : ThreadManager m) (c : Fin m) (threads : List ThreadEntry)
    (refs : Fin m → Option ℕ) (at_ : ManagerAt) (answer : List Bool) : ThreadManager m :=
  { s with
    toMonitor := s.notifyAll.release (.caller c) (.outside at_)
    m_threads := threads
    refs := refs
    answers := s.answers ++ answer.map (c, ·) }

/-- The references that stay valid when all elements from a position on are erased. -/
def refsBelow (s : ThreadManager m) (n : ℕ) (c : Fin m) : Option ℕ :=
  (s.refs c).filter fun p => p < n

/-- The second part of `joinThread`, after which `joinThreadByName` erases the entries without a
thread: those behind move up, and the references to the positions that are left now refer to them.
There is no next state if nothing is left where `t` refers to. -/
def unflag (s : ThreadManager m) (c : Fin m) : Option (ThreadManager m) :=
  match s.phase (.caller c) with
  | .inside ManagerSection.rejoin =>
    match s.refs c with
    | some p =>
      let threads := (s.m_threads.modify p ThreadEntry.unflagged).filter ThreadEntry.thread
      some (s.publish c threads (s.refsBelow threads.length) .idle [])
    | none => none
  | _ => none

/-- The first part of `sleepThreadByName`. -/
def startSleep (s : ThreadManager m) (c : Fin m) : Option (ThreadManager m) :=
  match s.phase (.caller c) with
  | .inside (ManagerSection.sleep name) =>
    match s.m_threads.find? fun e => e.name = name with
    | none => some (s.leave c [false])
    | some e =>
      if e.flag then some (s.leave c [true])
      else some (s.publish c (setEntry e.id (fun e => { e with flag := true }) s.m_threads)
        (s.refer c e.id) .sleeping [])
  | _ => none

def endSleep (s : ThreadManager m) (c : Fin m) : Option (ThreadManager m) :=
  match s.phase (.caller c) with
  | .outside ManagerAt.sleeping => some { s with
      toMonitor := s.goto (.caller c) (.locking ManagerSection.awake) }
  | _ => none

/-- The second part of `sleepThreadByName`. There is no next state if nothing is left where `t`
refers to. -/
def unsleep (s : ThreadManager m) (c : Fin m) : Option (ThreadManager m) :=
  match s.phase (.caller c) with
  | .inside ManagerSection.awake =>
    match s.refs c with
    | some p =>
      some (s.publish c (s.m_threads.modify p ThreadEntry.unflagged) s.refs .idle [true])
    | none => none
  | _ => none

/-- `isThreadRunning` with the mutex. -/
def readFlag (s : ThreadManager m) (c : Fin m) : Option (ThreadManager m) :=
  match s.phase (.caller c) with
  | .inside (ManagerSection.running name) =>
    match s.m_threads.find? fun e => e.name = name with
    | none => some (s.leave c [false])
    | some e => some (s.leave c [!e.flag])
  | _ => none

/-- `joinAllThreads` with the mutex: it goes on only when the list is empty, so that its loop joins
nothing, and it returns, to the end of the destructor if it was called there. -/
def checkEmpty (s : ThreadManager m) (c : Fin m) : Option (ThreadManager m) :=
  match s.phase (.caller c) with
  | .inside (ManagerSection.joinAll fromDestructor) =>
    if s.m_threads.isEmpty then
      if fromDestructor then some { s with
        toMonitor := s.release (.caller c) (.outside ManagerAt.destroyed) }
      else some (s.leave c [])
    else some { s with
      toMonitor := s.release (.caller c) (.parked (ManagerSection.joinAll fromDestructor)) }
  | _ => none

/-- The block of the destructor up to the lock of `joinAllThreads`, which it waits for with the
mutex held. -/
def stop (s : ThreadManager m) (c : Fin m) : Option (ThreadManager m) :=
  match s.phase (.caller c) with
  | .inside ManagerSection.stop =>
    let mon := if s.m_stopFlag then s.toMonitor else s.notifyAll
    some { s with
      toMonitor := mon.goto (.caller c) (.locking (ManagerSection.joinAll true))
      m_stopFlag := true }
  | _ => none

inductive Event (m : ℕ)
  | lock (t : ManagerThread m)
  | spurious (t : ManagerThread m)
  | finish (i : ℕ)
  | exit (i : ℕ)
  | call (c : Fin m) (op : Operation)
  | admitThread (c : Fin m) (target : Option (Fin m))
  | find (c : Fin m)
  | joined (c : Fin m)
  | resetAgain (c : Fin m)
  | unflag (c : Fin m)
  | startSleep (c : Fin m)
  | endSleep (c : Fin m)
  | unsleep (c : Fin m)
  | readFlag (c : Fin m)
  | checkEmpty (c : Fin m)
  | stop (c : Fin m)

/-- One step of one thread. -/
def step (s : ThreadManager m) : Event m → Option (ThreadManager m)
  | .lock t => (s.lock? t).map fun mon => { s with toMonitor := mon }
  | .spurious t => (s.wake? t).map fun mon => { s with toMonitor := mon }
  | .finish i => s.finish i
  | .exit i => s.exit i
  | .call c op => s.call c op
  | .admitThread c target => s.admitThread c target
  | .find c => s.find c
  | .joined c => s.joined c
  | .resetAgain c => s.resetAgain c
  | .unflag c => s.unflag c
  | .startSleep c => s.startSleep c
  | .endSleep c => s.endSleep c
  | .unsleep c => s.unsleep c
  | .readFlag c => s.readFlag c
  | .checkEmpty c => s.checkEmpty c
  | .stop c => s.stop c

/-- A caller adds a thread without having to wait, and nobody waits to be notified. -/
def addsThread (c : Fin m) (name : Bytes) : List (Event m) :=
  [.call c (.addThread name), .lock (.caller c), .admitThread c none]

/-- The events in which no added thread has a part, and no thread is added. -/
def Event.Plain : Event m → Prop
  | .finish _ | .exit _ | .admitThread _ _ => False
  | _ => True

/-- What each step asks of the state and what it changes. -/
inductive StepsTo (s : ThreadManager m) : Event m → ThreadManager m → Prop
  | lock {t : ManagerThread m} {i : t.Section} (hfree : s.owner = none)
      (ht : s.phase t = .locking i ∨ s.phase t = .woken i) :
      StepsTo s (.lock t) { s with
        owner := some t
        phase := Function.update s.phase t (.inside i) }
  | spurious {t : ManagerThread m} {i : t.Section} (ht : s.phase t = .parked i) :
      StepsTo s (.spurious t) { s with toMonitor := s.goto t (.woken i) }
  | finish {i : ℕ} (hi : s.phase (.added i) = .outside AddedAt.running) :
      StepsTo s (.finish i) { s with
        toMonitor := s.goto (.added i) (.locking AddedSection.epilogue) }
  | exit {i : ℕ} (hi : s.phase (.added i) = .inside AddedSection.epilogue) :
      StepsTo s (.exit i) { s with
        toMonitor := s.release (.added i) (.outside AddedAt.exited) }
  | answers {c : Fin m} {op : Operation} (hc : s.phase (.caller c) = .outside ManagerAt.idle)
      (answers : List (Fin m × Bool)) : StepsTo s (.call c op) { s with answers := answers }
  | calls {c : Fin m} {op : Operation} (hc : s.phase (.caller c) = .outside ManagerAt.idle) :
      StepsTo s (.call c op) { s with
        toMonitor := s.goto (.caller c) (.locking op.begins) }
  | refuses {c : Fin m} {target : Option (Fin m)} {name : Bytes}
      (hc : s.phase (.caller c) = .inside (ManagerSection.add name)) (hstop : s.m_stopFlag = true) :
      StepsTo s (.admitThread c target) (s.leave c [])
  | creates {c : Fin m} {target : Option (Fin m)} {name : Bytes} {mon : ManagerMonitor m}
      (hc : s.phase (.caller c) = .inside (ManagerSection.add name)) (hstop : s.m_stopFlag = false)
      (hroom : s.hasRoom = true)
      (hmon : notifyOne? (s.goto (.added s.created) (.outside AddedAt.running)) target =
        some mon) :
      StepsTo s (.admitThread c target) (s.create c name mon)
  | waitsForRoom {c : Fin m} {target : Option (Fin m)} {name : Bytes}
      (hc : s.phase (.caller c) = .inside (ManagerSection.add name)) (hstop : s.m_stopFlag = false)
      (hroom : s.hasRoom = false) :
      StepsTo s (.admitThread c target) { s with
        toMonitor := s.release (.caller c) (.parked (ManagerSection.add name)) }
  | startsJoin {c : Fin m} {name : Bytes} {e : ThreadEntry}
      (hc : s.phase (.caller c) = .inside (ManagerSection.join name))
      (hfind : s.m_threads.find? (fun e => e.name = name) = some e) (hthread : e.thread = true) :
      StepsTo s (.find c) { s with
        toMonitor := s.goto (.caller c) (.inside (ManagerSection.joining e.id)) }
  | findsNoThread {c : Fin m} {name : Bytes} {e : ThreadEntry}
      (hc : s.phase (.caller c) = .inside (ManagerSection.join name)) (he : e ∈ s.m_threads)
      (hthread : e.thread = false) : StepsTo s (.find c) (s.reset c e.id)
  | joined {c : Fin m} {id : ℕ}
      (hc : s.phase (.caller c) = .inside (ManagerSection.joining id))
      (hid : s.phase (.added id) = .outside AddedAt.exited) : StepsTo s (.joined c) (s.reset c id)
  | leaves {a : Event m} {c : Fin m} {i : ManagerSection} {answer : List Bool}
      (ha : a = .find c ∨ a = .startSleep c ∨ a = .readFlag c ∨ a = .checkEmpty c)
      (hc : s.phase (.caller c) = .inside i)
      (hempty : i = .joinAll false → s.m_threads = []) : StepsTo s a (s.leave c answer)
  | relocks {a : Event m} {c : Fin m} {at_ : ManagerAt} {i : ManagerSection}
      (ha : a = .resetAgain c ∨ a = .endSleep c) (hc : s.phase (.caller c) = .outside at_)
      (hat : at_ ≠ .idle) (hi : i = .rejoin ∨ i = .awake) :
      StepsTo s a { s with toMonitor := s.goto (.caller c) (.locking i) }
  | erases {c : Fin m} {p : ℕ} {refs : Fin m → Option ℕ}
      (hc : s.phase (.caller c) = .inside ManagerSection.rejoin) (hp : s.refs c = some p) :
      StepsTo s (.unflag c)
        (s.publish c ((s.m_threads.modify p ThreadEntry.unflagged).filter ThreadEntry.thread) refs
          .idle [])
  | marks {a : Event m} {c : Fin m} {i : ManagerSection} {threads : List ThreadEntry}
      {refs : Fin m → Option ℕ} {at_ : ManagerAt} {answer : List Bool}
      (ha : a = .startSleep c ∨ a = .unsleep c) (hc : s.phase (.caller c) = .inside i)
      (hi : ∀ b, i ≠ .joinAll b) (hat : at_ ≠ .destroyed)
      (hthreads : threads.map ThreadEntry.unflagged = s.m_threads.map ThreadEntry.unflagged) :
      StepsTo s a (s.publish c threads refs at_ answer)
  | waitsForEmpty {c : Fin m} {fromDestructor : Bool}
      (hc : s.phase (.caller c) = .inside (ManagerSection.joinAll fromDestructor))
      (hthreads : s.m_threads ≠ []) :
      StepsTo s (.checkEmpty c) { s with
        toMonitor := s.release (.caller c) (.parked (ManagerSection.joinAll fromDestructor)) }
  | destroyed {c : Fin m} (hc : s.phase (.caller c) = .inside (ManagerSection.joinAll true)) :
      StepsTo s (.checkEmpty c) { s with
        toMonitor := s.release (.caller c) (.outside ManagerAt.destroyed) }
  | stops {c : Fin m} {mon : ManagerMonitor m}
      (hc : s.phase (.caller c) = .inside ManagerSection.stop)
      (hmon : mon = s.toMonitor ∨ mon = s.notifyAll) :
      StepsTo s (.stop c) { s with
        toMonitor := mon.goto (.caller c) (.locking (ManagerSection.joinAll true))
        m_stopFlag := true }

variable {s t : ThreadManager m} {c : Fin m}

theorem call_cases {op : Operation} (h : s.call c op = some t) : StepsTo s (.call c op) t := by
  unfold call at h
  split at h
  next hc =>
    split at h
    next answer _ _ _ =>
      obtain rfl := Option.some.inj h
      exact .answers hc _
    next =>
      obtain rfl := Option.some.inj h
      exact .calls hc
  next => cases h

theorem admitThread_cases {target : Option (Fin m)} (h : s.admitThread c target = some t) :
    StepsTo s (.admitThread c target) t := by
  unfold admitThread at h
  split at h
  next name hc =>
    split at h
    next hstop =>
      obtain rfl := Option.some.inj h
      exact .refuses hc hstop
    next hstop =>
      have hstop : s.m_stopFlag = false := by simpa using hstop
      split at h
      next hroom =>
        obtain ⟨mon, hmon, rfl⟩ := Option.map_eq_some_iff.mp h
        exact .creates hc hstop hroom hmon
      next hroom =>
        obtain rfl := Option.some.inj h
        exact .waitsForRoom hc hstop (by simpa using hroom)
  next => cases h

theorem find_cases (h : s.find c = some t) : StepsTo s (.find c) t := by
  unfold find at h
  split at h
  next name hc =>
    split at h
    next =>
      obtain rfl := Option.some.inj h
      exact .leaves (.inl rfl) hc nofun
    next e hfind =>
      split at h
      next hthread =>
        obtain rfl := Option.some.inj h
        exact .startsJoin hc hfind hthread
      next hthread =>
        obtain rfl := Option.some.inj h
        exact .findsNoThread hc (List.mem_of_find?_eq_some hfind) (by simpa using hthread)
  next => cases h

theorem joined_cases (h : s.joined c = some t) : StepsTo s (.joined c) t := by
  unfold joined at h
  split at h
  next id hc =>
    split at h
    next hid =>
      obtain rfl := Option.some.inj h
      exact .joined hc hid
    next => cases h
  next => cases h

theorem resetAgain_cases (h : s.resetAgain c = some t) : StepsTo s (.resetAgain c) t := by
  unfold resetAgain at h
  split at h
  next hc =>
    split at h
    next =>
      split at h
      next => cases h
      next =>
        obtain rfl := Option.some.inj h
        exact .relocks (.inl rfl) hc nofun (.inl rfl)
    next => cases h
  next => cases h

theorem unflag_cases (h : s.unflag c = some t) : StepsTo s (.unflag c) t := by
  unfold unflag at h
  split at h
  next hc =>
    split at h
    next p hp =>
      obtain rfl := Option.some.inj h
      exact .erases hc hp
    next => cases h
  next => cases h

theorem eq_of_unflagged {e e' : ThreadEntry} (h : e.unflagged = e'.unflagged) :
    e.id = e'.id ∧ e.thread = e'.thread ∧ e.name = e'.name := by
  simp only [ThreadEntry.unflagged, ThreadEntry.mk.injEq] at h
  exact ⟨h.1, h.2.1, h.2.2.1⟩

/-- Writes to flags leave the rest of the entries. -/
@[simp] theorem map_unflagged_setEntry (id : ℕ) (flag : Bool) (threads : List ThreadEntry) :
    (setEntry id (fun e => { e with flag := flag }) threads).map ThreadEntry.unflagged =
      threads.map ThreadEntry.unflagged := by
  rw [setEntry, List.map_map]
  apply List.map_congr_left
  intro e _
  simp only [Function.comp_apply]
  split <;> rfl

@[simp] theorem map_unflagged_modify (p : ℕ) (threads : List ThreadEntry) :
    (threads.modify p ThreadEntry.unflagged).map ThreadEntry.unflagged =
      threads.map ThreadEntry.unflagged := by
  apply List.ext_getElem?
  intro i
  rw [List.getElem?_map, List.getElem?_modify, List.getElem?_map]
  cases threads[i]? with
  | none => rfl
  | some e =>
    simp only [Option.map_some]
    split <;> rfl

theorem startSleep_cases (h : s.startSleep c = some t) : StepsTo s (.startSleep c) t := by
  unfold startSleep at h
  split at h
  next name hc =>
    split at h
    next =>
      obtain rfl := Option.some.inj h
      exact .leaves (.inr (.inl rfl)) hc nofun
    next e _ =>
      split at h
      next =>
        obtain rfl := Option.some.inj h
        exact .leaves (.inr (.inl rfl)) hc nofun
      next =>
        obtain rfl := Option.some.inj h
        exact .marks (.inl rfl) hc nofun nofun (map_unflagged_setEntry _ true _)
  next => cases h

theorem unsleep_cases (h : s.unsleep c = some t) : StepsTo s (.unsleep c) t := by
  unfold unsleep at h
  split at h
  next hc =>
    split at h
    next p _ =>
      obtain rfl := Option.some.inj h
      exact .marks (.inr rfl) hc nofun nofun (map_unflagged_modify p _)
    next => cases h
  next => cases h

theorem readFlag_cases (h : s.readFlag c = some t) : StepsTo s (.readFlag c) t := by
  unfold readFlag at h
  split at h
  next name hc =>
    split at h
    all_goals
      obtain rfl := Option.some.inj h
      exact .leaves (.inr (.inr (.inl rfl))) hc nofun
  next => cases h

theorem checkEmpty_cases (h : s.checkEmpty c = some t) : StepsTo s (.checkEmpty c) t := by
  unfold checkEmpty at h
  split at h
  next fromDestructor hc =>
    split at h
    next hthreads =>
      split at h
      next hdestructor =>
        obtain rfl := Option.some.inj h
        rw [hdestructor] at hc
        exact .destroyed hc
      next =>
        obtain rfl := Option.some.inj h
        exact .leaves (.inr (.inr (.inr rfl))) hc fun _ => List.isEmpty_iff.mp hthreads
    next hthreads =>
      obtain rfl := Option.some.inj h
      exact .waitsForEmpty hc fun hnil => hthreads (List.isEmpty_iff.mpr hnil)
  next => cases h

theorem stop_cases (h : s.stop c = some t) : StepsTo s (.stop c) t := by
  unfold stop at h
  split at h
  next hc =>
    obtain rfl := Option.some.inj h
    apply StepsTo.stops hc
    cases s.m_stopFlag
    · exact .inr rfl
    · exact .inl rfl
  next => cases h

theorem step_cases {a : Event m} (h : s.step a = some t) : StepsTo s a t := by
  cases a with
  | call c op => exact call_cases h
  | admitThread c target => exact admitThread_cases h
  | find c => exact find_cases h
  | joined c => exact joined_cases h
  | resetAgain c => exact resetAgain_cases h
  | unflag c => exact unflag_cases h
  | startSleep c => exact startSleep_cases h
  | unsleep c => exact unsleep_cases h
  | readFlag c => exact readFlag_cases h
  | checkEmpty c => exact checkEmpty_cases h
  | stop c => exact stop_cases h
  | lock t =>
    obtain ⟨mon, hmon, rfl⟩ := Option.map_eq_some_iff.mp h
    obtain ⟨i, hfree, ht, rfl⟩ := Monitor.lock?_eq_some hmon
    exact .lock hfree ht
  | spurious t =>
    obtain ⟨mon, hmon, rfl⟩ := Option.map_eq_some_iff.mp h
    obtain ⟨i, ht, rfl⟩ := Monitor.wake?_eq_some hmon
    exact .spurious ht
  | finish i =>
    simp only [step, finish] at h
    split at h
    next hi =>
      obtain rfl := Option.some.inj h
      exact .finish hi
    next => cases h
  | exit i =>
    simp only [step, exit] at h
    split at h
    next hi =>
      obtain rfl := Option.some.inj h
      exact .exit hi
    next => cases h
  | endSleep c =>
    simp only [step, endSleep] at h
    split at h
    next hc =>
      obtain rfl := Option.some.inj h
      exact .relocks (.inr rfl) hc nofun (.inr rfl)
    next => cases h

/-- A notification of an added thread leaves every thread where it is, or wakes it. -/
theorem notifyOne?_phase {mon mon' : ManagerMonitor m} {target : Option (Fin m)}
    (h : notifyOne? mon target = some mon') (u : ManagerThread m) :
    mon'.phase u = mon.phase u ∨ mon'.phase u = (mon.phase u).wake := by
  cases target with
  | some c =>
    obtain ⟨i, hphase, rfl⟩ := Monitor.wake?_eq_some h
    by_cases hu : u = .caller c
    · subst hu
      right
      rw [Monitor.goto_phase_self, hphase, Phase.wake]
    · exact .inl (Monitor.goto_phase_of_ne mon hu _)
  | none =>
    simp only [notifyOne?, Option.ite_none_right_eq_some, Option.some.injEq] at h
    exact .inl (by rw [h.2])

theorem notifyOne?_all {φ : ∀ u : ManagerThread m, Phase u.At u.Section → Prop}
    {mon mon' : ManagerMonitor m} {target : Option (Fin m)} (h : notifyOne? mon target = some mon')
    (hmon : mon.All φ) (hwake : ∀ u ph, φ u ph → φ u ph.wake) : mon'.All φ := by
  intro u
  rcases notifyOne?_phase h u with hu | hu
  · exact hu ▸ hmon u
  · exact hu ▸ hwake u _ (hmon u)

theorem notifyOne?_owner {mon mon' : ManagerMonitor m} {target : Option (Fin m)}
    (h : notifyOne? mon target = some mon') : mon'.owner = mon.owner := by
  cases target with
  | some c =>
    obtain ⟨i, -, rfl⟩ := Monitor.wake?_eq_some h
    rfl
  | none =>
    simp only [notifyOne?, Option.ite_none_right_eq_some, Option.some.injEq] at h
    rw [h.2]

theorem notifyOne?_owned {mon mon' : ManagerMonitor m} {target : Option (Fin m)}
    (h : notifyOne? mon target = some mon') (hmon : mon.Owned) : mon'.Owned := by
  have hall : mon'.All fun u ph => ph.Inside → mon.owner = some u :=
    notifyOne?_all h hmon fun _ _ hph hin => hph (Phase.inside_wake.mp hin)
  rwa [← notifyOne?_owner h] at hall

/-- The mutex excludes also while the destructor waits for the mutex that it owns. -/
theorem owned_step {a : Event m} (hs : s.Owned) (h : s.step a = some t) : t.Owned := by
  have howner {u : ManagerThread m} {i : u.Section} (hu : s.phase u = .inside i) :
      s.owner = some u := hs u (by rw [hu]; exact Phase.inside_inside i)
  cases step_cases h with
  | lock hfree => exact hs.lock hfree _
  | spurious => exact hs.goto nofun
  | finish => exact hs.goto nofun
  | exit hi => exact hs.release (howner hi) nofun
  | answers => exact hs
  | calls | relocks => exact hs.goto nofun
  | refuses hc | leaves _ hc | destroyed hc => exact hs.release (howner hc) nofun
  | waitsForRoom hc | waitsForEmpty hc => exact hs.release (howner hc) nofun
  | creates hc _ _ hmon =>
    have hmon' := notifyOne?_owned hmon (hs.goto nofun)
    exact hmon'.release ((notifyOne?_owner hmon).trans (howner hc)) nofun
  | startsJoin hc => exact hs.goto fun _ => howner hc
  | findsNoThread hc | joined hc => exact hs.notifyAll.release (howner hc) nofun
  | erases hc | marks _ hc => exact hs.notifyAll.release (howner hc) nofun
  | stops hc hmon =>
    rcases hmon with rfl | rfl
    · exact hs.goto nofun
    · exact hs.notifyAll.goto nofun

theorem owned_init (m : ℕ) (maxThreads : Int32) : (init m maxThreads).Owned := by
  intro u hu
  cases u with
  | added i => exact absurd hu (Phase.not_inside_outside _)
  | caller c => exact absurd hu (Phase.not_inside_outside _)

theorem caller_ne_added (c : Fin m) (i : ℕ) : ManagerThread.caller c ≠ .added i := nofun

theorem added_ne_added {i j : ℕ} (hij : i ≠ j) : ManagerThread.added (m := m) i ≠ .added j :=
  fun h => hij (ManagerThread.added.inj h)

theorem caller_ne_caller {c c' : Fin m} (hc : c ≠ c') :
    ManagerThread.caller c ≠ ManagerThread.caller c' :=
  fun h => hc (ManagerThread.caller.inj h)

/-- What a caller does leaves the added threads where they are. -/
@[simp] theorem goto_caller_added (mon : ManagerMonitor m) (c : Fin m)
    (ph : Phase (ManagerThread.At (.caller c)) (ManagerThread.Section (.caller c))) (i : ℕ) :
    (mon.goto (.caller c) ph).phase (.added i) = mon.phase (.added i) :=
  mon.goto_phase_of_ne (caller_ne_added c i).symm ph

@[simp] theorem release_caller_added (mon : ManagerMonitor m) (c : Fin m)
    (ph : Phase (ManagerThread.At (.caller c)) (ManagerThread.Section (.caller c))) (i : ℕ) :
    (mon.release (.caller c) ph).phase (.added i) = mon.phase (.added i) :=
  mon.release_phase_of_ne (caller_ne_added c i).symm ph

/-- Only callers are notified. -/
theorem notifyOne?_added {mon mon' : ManagerMonitor m} {target : Option (Fin m)}
    (h : notifyOne? mon target = some mon') (i : ℕ) :
    mon'.phase (.added i) = mon.phase (.added i) := by
  cases target with
  | some c =>
    obtain ⟨j, -, rfl⟩ := Monitor.wake?_eq_some h
    exact goto_caller_added mon c _ i
  | none =>
    simp only [notifyOne?, Option.ite_none_right_eq_some, Option.some.injEq] at h
    rw [h.2]

/-- Two added threads at different places are different. -/
theorem added_ne {i j : ℕ} {ph ph' : Phase AddedAt AddedSection} (hi : s.phase (.added i) = ph)
    (hj : s.phase (.added j) = ph') (hne : ph ≠ ph') :
    ManagerThread.added (m := m) i ≠ .added j := by
  intro hij
  obtain rfl := ManagerThread.added.inj hij
  exact hne (hi.symm.trans hj)

/-- The thread has left its epilogue. -/
def Exited (s : ThreadManager m) (i : ℕ) : Prop :=
  s.phase (.added i) = .outside AddedAt.exited

/-- Every thread that was added and has not exited is in the list, with its `std::thread`. -/
structure Inv (s : ThreadManager m) : Prop where
  absent_iff : ∀ i, s.phase (.added i) = .outside AddedAt.absent ↔ s.created ≤ i
  known : ∀ e ∈ s.m_threads, e.id < s.created
  listed : ∀ i < s.created, s.Exited i ∨ ∃ e ∈ s.m_threads, e.id = i ∧ e.thread = true
  gone : ∀ e ∈ s.m_threads, e.thread = false → s.Exited e.id

/-- What a call may do to the list: it loses only threads that have exited. -/
structure KeepsThreads (s : ThreadManager m) (threads : List ThreadEntry) : Prop where
  length : threads.length ≤ s.m_threads.length
  known : ∀ e ∈ threads, ∃ e' ∈ s.m_threads, e'.id = e.id
  listed : ∀ e ∈ s.m_threads, e.thread = true →
    s.Exited e.id ∨ ∃ e' ∈ threads, e'.id = e.id ∧ e'.thread = true
  gone : ∀ e ∈ threads, e.thread = false → s.Exited e.id

namespace KeepsThreads

theorem same (hs : Inv s) : s.KeepsThreads s.m_threads :=
  ⟨le_rfl, fun e he => ⟨e, he, rfl⟩, fun e he hthread => .inr ⟨e, he, rfl, hthread⟩, hs.gone⟩

/-- The entry of a thread that has exited may change. -/
theorem setEntry (hs : Inv s) {id : ℕ} {f : ThreadEntry → ThreadEntry}
    (hf : ∀ e, (f e).id = e.id) (hexited : s.Exited id) :
    s.KeepsThreads (setEntry id f s.m_threads) := by
  constructor
  · exact (List.length_map _).le
  · intro e he
    obtain ⟨e₀, he₀, rfl⟩ := List.mem_map.mp he
    refine ⟨e₀, he₀, ?_⟩
    split
    · exact (hf e₀).symm
    · rfl
  · intro e he he'
    by_cases hid : e.id = id
    · exact .inl (hid ▸ hexited)
    · exact .inr ⟨e, List.mem_map.mpr ⟨e, he, if_neg hid⟩, rfl, he'⟩
  · intro e he he'
    obtain ⟨e₀, he₀, rfl⟩ := List.mem_map.mp he
    by_cases hid : e₀.id = id
    · rw [if_pos hid, hf]
      exact hid ▸ hexited
    · rw [if_neg hid] at he' ⊢
      exact hs.gone e₀ he₀ he'

/-- Writes to flags only. -/
theorem setFlags (hs : Inv s) {threads : List ThreadEntry}
    (h : threads.map ThreadEntry.unflagged = s.m_threads.map ThreadEntry.unflagged) :
    s.KeepsThreads threads := by
  have hold : ∀ e ∈ threads, ∃ e₀ ∈ s.m_threads, e₀.unflagged = e.unflagged := by
    intro e he
    have hmem : e.unflagged ∈ s.m_threads.map ThreadEntry.unflagged := by
      rw [← h]
      exact List.mem_map_of_mem he
    exact List.mem_map.mp hmem
  have hnew : ∀ e ∈ s.m_threads, ∃ e' ∈ threads, e'.unflagged = e.unflagged := by
    intro e he
    have hmem : e.unflagged ∈ threads.map ThreadEntry.unflagged := by
      rw [h]
      exact List.mem_map_of_mem he
    exact List.mem_map.mp hmem
  constructor
  · have hlength := congrArg List.length h
    rw [List.length_map, List.length_map] at hlength
    exact hlength.le
  · intro e he
    obtain ⟨e₀, he₀, heq⟩ := hold e he
    exact ⟨e₀, he₀, (eq_of_unflagged heq).1⟩
  · intro e he hthread
    obtain ⟨e', he', heq⟩ := hnew e he
    obtain ⟨hid, hthread', -⟩ := eq_of_unflagged heq
    exact .inr ⟨e', he', hid, hthread'.trans hthread⟩
  · intro e he hthread
    obtain ⟨e₀, he₀, heq⟩ := hold e he
    obtain ⟨hid, hthread', -⟩ := eq_of_unflagged heq
    rw [← hid]
    exact hs.gone e₀ he₀ (hthread'.trans hthread)

theorem filter {threads : List ThreadEntry} (h : s.KeepsThreads threads) :
    s.KeepsThreads (threads.filter ThreadEntry.thread) := by
  constructor
  · exact (List.length_filter_le _ _).trans h.length
  · exact fun e he => h.known e (List.mem_of_mem_filter he)
  · intro e he hthread
    obtain hexited | ⟨e', he', hid, hthread'⟩ := h.listed e he hthread
    · exact .inl hexited
    · exact .inr ⟨e', List.mem_filter.mpr ⟨he', hthread'⟩, hid, hthread'⟩
  · exact fun e he => h.gone e (List.mem_of_mem_filter he)

end KeepsThreads

/-- A step beside the added threads: none is added, and none ends its function or exits. -/
structure Aside (s : ThreadManager m) (a : Event m) (t : ThreadManager m) : Prop where
  event : a.Plain ∨
    (∃ c target, a = .admitThread c target) ∧ (s.m_stopFlag = true ∨ s.hasRoom = false)
  outside_iff : ∀ i o, t.phase (.added i) = .outside o ↔ s.phase (.added i) = .outside o
  created : t.created = s.created
  max : t.m_maxThreads = s.m_maxThreads
  stop : s.m_stopFlag = true → t.m_stopFlag = true
  threads : s.KeepsThreads t.m_threads

/-- Only the end of its function, its exit and its creation change where an added thread is
outside the mutex. -/
theorem StepsTo.added_cases {a : Event m} (h : StepsTo s a t) (hs : Inv s) :
    (∃ i, a = .finish i ∧ s.phase (.added i) = .outside AddedAt.running ∧
      t = { s with toMonitor := s.goto (.added i) (.locking AddedSection.epilogue) }) ∨
    (∃ i, a = .exit i ∧ s.phase (.added i) = .inside AddedSection.epilogue ∧
      t = { s with toMonitor := s.release (.added i) (.outside AddedAt.exited) }) ∨
    (∃ c target name mon, a = .admitThread c target ∧ s.m_stopFlag = false ∧ s.hasRoom = true ∧
      notifyOne? (s.goto (.added s.created) (.outside AddedAt.running)) target = some mon ∧
      t = s.create c name mon) ∨ Aside s a t := by
  have hwake (i : ℕ) (o : AddedAt) :
      s.notifyAll.phase (.added i) = .outside o ↔ s.phase (.added i) = .outside o :=
    Phase.wake_eq_outside
  have hsame := KeepsThreads.same hs
  cases h with
  | finish hi => exact .inl ⟨_, rfl, hi, rfl⟩
  | exit hi => exact .inr (.inl ⟨_, rfl, hi, rfl⟩)
  | creates _ hstop hroom hmon =>
    exact .inr (.inr (.inl ⟨_, _, _, _, rfl, hstop, hroom, hmon, rfl⟩))
  | lock _ ht =>
    rename_i u j _
    refine .inr (.inr (.inr ⟨.inl trivial, fun i o => ?_, rfl, rfl, id, hsame⟩))
    -- a thread that waits for the mutex is not outside, and neither is one that has it
    by_cases hu : u = .added i
    · subst hu
      simp only [Function.update_self, reduceCtorEq, false_iff]
      intro hout
      rcases ht with ht | ht <;> exact nomatch ht.symm.trans hout
    · simp only [Function.update_of_ne (Ne.symm hu)]
  | spurious ht =>
    rename_i u j
    refine .inr (.inr (.inr ⟨.inl trivial, fun i o => ?_, rfl, rfl, id, hsame⟩))
    by_cases hu : u = .added i
    · subst hu
      rw [Monitor.goto_phase_self, ht]
      exact iff_of_false nofun nofun
    · rw [Monitor.goto_phase_of_ne _ (Ne.symm hu)]
  | answers => exact .inr (.inr (.inr ⟨.inl trivial, fun _ _ => .rfl, rfl, rfl, id, hsame⟩))
  | calls | startsJoin =>
    refine .inr (.inr (.inr ⟨.inl trivial, fun i o => ?_, rfl, rfl, id, hsame⟩))
    rw [goto_caller_added]
  | relocks ha =>
    have hplain : a.Plain := by rcases ha with rfl | rfl <;> trivial
    refine .inr (.inr (.inr ⟨.inl hplain, fun i o => ?_, rfl, rfl, id, hsame⟩))
    rw [goto_caller_added]
  | leaves ha =>
    have hplain : a.Plain := by rcases ha with rfl | rfl | rfl | rfl <;> trivial
    refine .inr (.inr (.inr ⟨.inl hplain, fun i o => ?_, rfl, rfl, id, hsame⟩))
    rw [leave, release_caller_added]
  | refuses _ hstop =>
    refine .inr (.inr (.inr ⟨.inr ⟨⟨_, _, rfl⟩, .inl hstop⟩, fun i o => ?_, rfl, rfl, id, hsame⟩))
    rw [leave, release_caller_added]
  | waitsForRoom _ _ hroom =>
    refine .inr (.inr (.inr ⟨.inr ⟨⟨_, _, rfl⟩, .inr hroom⟩, fun i o => ?_, rfl, rfl, id, hsame⟩))
    rw [release_caller_added]
  | waitsForEmpty | destroyed =>
    refine .inr (.inr (.inr ⟨.inl trivial, fun i o => ?_, rfl, rfl, id, hsame⟩))
    rw [release_caller_added]
  | findsNoThread hc he hthread =>
    refine .inr (.inr (.inr ⟨.inl trivial, fun i o => ?_, rfl, rfl, id, ?_⟩))
    · rw [reset, release_caller_added, hwake]
    · exact .setEntry hs (fun _ => rfl) (hs.gone _ he hthread)
  | joined hc hid =>
    refine .inr (.inr (.inr ⟨.inl trivial, fun i o => ?_, rfl, rfl, id, ?_⟩))
    · rw [reset, release_caller_added, hwake]
    · exact .setEntry hs (fun _ => rfl) hid
  | erases =>
    refine .inr (.inr (.inr ⟨.inl trivial, fun i o => ?_, rfl, rfl, id, ?_⟩))
    · rw [publish, release_caller_added, hwake]
    · exact (KeepsThreads.setFlags hs (map_unflagged_modify _ _)).filter
  | marks ha _ _ _ hthreads =>
    have hplain : a.Plain := by rcases ha with rfl | rfl <;> trivial
    refine .inr (.inr (.inr ⟨.inl hplain, fun i o => ?_, rfl, rfl, id, ?_⟩))
    · rw [publish, release_caller_added, hwake]
    · exact .setFlags hs hthreads
  | stops _ hmon =>
    refine .inr (.inr (.inr ⟨.inl trivial, fun i o => ?_, rfl, rfl, fun _ => rfl, hsame⟩))
    rw [goto_caller_added]
    rcases hmon with rfl | rfl
    · rfl
    · exact hwake i o

/-- An added thread that has exited stays where it is. -/
theorem StepsTo.exited {a : Event m} (h : StepsTo s a t) (hs : Inv s) {i : ℕ} (hi : s.Exited i) :
    t.Exited i := by
  obtain ⟨j, -, hj, rfl⟩ | ⟨j, -, hj, rfl⟩ | ⟨c, target, name, mon, -, -, -, hmon, rfl⟩ | haside :=
    h.added_cases hs
  · exact (s.goto_phase_of_ne (added_ne hi hj nofun) _).trans hi
  · exact (s.release_phase_of_ne (added_ne hi hj nofun) _).trans hi
  · have hne := added_ne hi ((hs.absent_iff s.created).mpr le_rfl) nofun
    rw [Exited, create, release_caller_added, notifyOne?_added hmon, s.goto_phase_of_ne hne]
    exact hi
  · exact (haside.outside_iff i _).mpr hi

/-- A thread that is there does not become absent, nor does another one. -/
theorem goto_absent_iff {j : ℕ} {ph : Phase AddedAt AddedSection} (hj : s.phase (.added j) = ph)
    (hph : ph ≠ .outside .absent) (ph' : Phase AddedAt AddedSection)
    (hph' : ph' ≠ .outside .absent) (i : ℕ) :
    (s.goto (.added j) ph').phase (.added i) = .outside AddedAt.absent ↔
      s.phase (.added i) = .outside AddedAt.absent := by
  by_cases hij : i = j
  · subst hij
    rw [Monitor.goto_phase_self, hj]
    exact iff_of_false hph' hph
  · rw [s.goto_phase_of_ne (added_ne_added hij)]

theorem Inv.step {a : Event m} (hs : Inv s) (h : s.step a = some t) : Inv t := by
  have hsteps := step_cases h
  have hexited {i : ℕ} : s.Exited i → t.Exited i := hsteps.exited hs
  obtain ⟨j, -, hj, rfl⟩ | ⟨j, -, hj, rfl⟩ | ⟨c, target, name, mon, -, -, -, hmon, rfl⟩ | haside :=
    hsteps.added_cases hs
  · exact {
      absent_iff := fun i =>
        (goto_absent_iff hj nofun (.locking .epilogue) nofun i).trans (hs.absent_iff i)
      known := hs.known
      listed := fun i hi => (hs.listed i hi).imp_left hexited
      gone := fun e he hthread => hexited (hs.gone e he hthread) }
  · exact {
      absent_iff := fun i =>
        (goto_absent_iff hj nofun (.outside .exited) nofun i).trans (hs.absent_iff i)
      known := hs.known
      listed := fun i hi => (hs.listed i hi).imp_left hexited
      gone := fun e he hthread => hexited (hs.gone e he hthread) }
  · constructor
    · intro i
      have hphase := notifyOne?_added hmon i
      rw [create, release_caller_added, hphase]
      by_cases hi : i = s.created
      · subst hi
        rw [Monitor.goto_phase_self]
        exact iff_of_false nofun (Nat.not_succ_le_self _)
      · have hlt : s.created ≤ i ↔ s.created + 1 ≤ i := by omega
        rw [s.goto_phase_of_ne (added_ne_added hi), hs.absent_iff]
        exact hlt
    · intro e he
      rcases List.mem_append.mp he with he | he
      · exact (hs.known e he).trans (Nat.lt_succ_self _)
      · rw [List.mem_singleton.mp he]
        exact Nat.lt_succ_self _
    · intro i hi
      rcases Nat.lt_succ_iff_lt_or_eq.mp hi with hlt | rfl
      · rcases hs.listed i hlt with hi | ⟨e, he, hid, hthread⟩
        · exact .inl (hexited hi)
        · exact .inr ⟨e, List.mem_append_left _ he, hid, hthread⟩
      · exact .inr ⟨_, List.mem_append_right _ (List.mem_singleton_self _), rfl, rfl⟩
    · intro e he hthread
      rcases List.mem_append.mp he with he | he
      · exact hexited (hs.gone e he hthread)
      · rw [List.mem_singleton.mp he] at hthread
        cases hthread
  · constructor
    · intro i
      rw [haside.created]
      exact (haside.outside_iff i _).trans (hs.absent_iff i)
    · intro e he
      obtain ⟨e', he', hid⟩ := haside.threads.known e he
      rw [haside.created, ← hid]
      exact hs.known e' he'
    · intro i hi
      rw [haside.created] at hi
      rcases hs.listed i hi with hi | ⟨e, he, rfl, hthread⟩
      · exact .inl (hexited hi)
      · exact (haside.threads.listed e he hthread).imp_left hexited
    · exact fun e he hthread => hexited (haside.threads.gone e he hthread)

theorem inv_init (m : ℕ) (maxThreads : Int32) : Inv (init m maxThreads) :=
  ⟨fun i => iff_of_true rfl (Nat.zero_le i), nofun, nofun, nofun⟩

open EventMachine

theorem inv_of_reachable {maxThreads : Int32} (hs : Reachable step (init m maxThreads) s) : Inv s :=
  reachable_invariant (inv_init m maxThreads) (fun _ _ _ => Inv.step) hs

theorem owned_of_reachable {maxThreads : Int32} (hs : Reachable step (init m maxThreads) s) :
    s.Owned :=
  reachable_invariant (I := fun s : ThreadManager m => s.Owned) (owned_init m maxThreads)
    (fun _ _ _ => owned_step) hs

end ThreadManager

end OpenAPT
