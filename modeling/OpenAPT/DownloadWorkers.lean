import Mathlib.Data.Fintype.Basic
import OpenAPT.DownloadManager
import OpenAPT.Lib.EventMachine

/-! The workers that `DownloadManager::start` runs. A worker downloads a copy of the task that
`get_next_task` gives it, and the list, from which the next one is chosen, never changes. -/
namespace OpenAPT

open EventMachine

/-- Where a worker is: at the loop test of `run`, in `get_next_task` with the mutex, at the lock of
`get_next_task_index` inside it, with the task it got, in `download_task` with a body of some size,
or out of the loop. A task is held with the index it was handed out under. -/
inductive DownloadWorker
  | looping
  | inside
  | relocking
  | holding (index : Option ℕ) (task : DownloadTask)
  | downloading (index : Option ℕ) (task : DownloadTask) (body : ℕ)
  | finished
  deriving DecidableEq

/-- The members that `n` workers share while `running_` is set, with the indexes handed out and the
downloads that came to their end, each with the size of the body. -/
structure DownloadWorkers (n : ℕ) where
  tasks_ : List DownloadTask
  task_queue_ : List DownloadTask
  mutex_ : Option (Fin n)
  worker : Fin n → DownloadWorker
  handed : List ℕ
  received : List (ℕ × ℕ)

namespace DownloadWorkers

variable {n : ℕ}

def init (n : ℕ) (tasks : List DownloadTask) : DownloadWorkers n where
  tasks_ := tasks
  task_queue_ := []
  mutex_ := none
  worker _ := .looping
  handed := []
  received := []

def move (s : DownloadWorkers n) (w : Fin n) (at_ : DownloadWorker) : DownloadWorkers n :=
  { s with worker := Function.update s.worker w at_ }

/-- The loop of `get_next_task_index`. -/
def get_next_task_index (s : DownloadWorkers n) : Option ℕ :=
  s.tasks_.findIdx? fun task => !task.completed && !task.paused

/-- The lock of `get_next_task`. -/
def lock (s : DownloadWorkers n) (w : Fin n) : Option (DownloadWorkers n) :=
  match s.worker w, s.mutex_ with
  | .looping, none => some { s.move w .inside with mutex_ := some w }
  | _, _ => none

/-- `get_next_task` up to the call of `get_next_task_index`. -/
def next (s : DownloadWorkers n) (w : Fin n) : Option (DownloadWorkers n) :=
  match s.worker w with
  | .inside =>
    match s.task_queue_ with
    | task :: rest => some { s.move w (.holding none task) with mutex_ := none, task_queue_ := rest }
    | [] => some (s.move w .relocking)
  | _ => none

/-- `get_next_task_index` and the rest of `get_next_task`. The worker locks a mutex that it holds;
`relocks` says whether that goes through, which it does not for a `std::mutex`. -/
def index (relocks : Bool) (s : DownloadWorkers n) (w : Fin n) : Option (DownloadWorkers n) :=
  match s.worker w with
  | .relocking =>
    if relocks then
      match s.get_next_task_index with
      | some i =>
        (s.tasks_[i]?).map fun task =>
          { s.move w (.holding (some i) task) with mutex_ := none, handed := s.handed ++ [i] }
      | none => some { s.move w .finished with mutex_ := none }
    else none
  | _ => none

/-- `run` with the task it got, and `download_task` up to its loop: `response` is the size of the
body, if the request succeeds and the file can be opened. -/
def take (s : DownloadWorkers n) (w : Fin n) (response : Option ℕ) : Option (DownloadWorkers n) :=
  match s.worker w with
  | .holding i task =>
    if task.completed || task.paused then some (s.move w .looping)
    else
      match response with
      | some body => some (s.move w (.downloading i task body))
      | none => some (s.move w .looping)
  | _ => none

/-- The condition of the loop of `download_task`. -/
def goesOn (task : DownloadTask) (body : ℕ) : Bool :=
  body ≠ 0 && !task.completed && !task.paused

/-- A turn of the loop, in which the position in the file has moved by `written`. -/
def wrote (task : DownloadTask) (body written : ℕ) : DownloadTask :=
  { task with
    downloaded_bytes := task.downloaded_bytes + written
    completed := task.completed || body ≤ task.downloaded_bytes + written }

def write (s : DownloadWorkers n) (w : Fin n) (written : ℕ) : Option (DownloadWorkers n) :=
  match s.worker w with
  | .downloading i task body =>
    if goesOn task body then some (s.move w (.downloading i (wrote task body written) body)) else none
  | _ => none

/-- The loop ends, and `run` goes round. -/
def close (s : DownloadWorkers n) (w : Fin n) : Option (DownloadWorkers n) :=
  match s.worker w with
  | .downloading i task body =>
    if goesOn task body then none
    else some { s.move w .looping with received := s.received ++ i.toList.map (·, body) }
  | _ => none

inductive Event (n : ℕ)
  | lock (w : Fin n)
  | next (w : Fin n)
  | index (w : Fin n)
  | take (w : Fin n) (response : Option ℕ)
  | write (w : Fin n) (written : ℕ)
  | close (w : Fin n)

def step (relocks : Bool) (s : DownloadWorkers n) : Event n → Option (DownloadWorkers n)
  | .lock w => s.lock w
  | .next w => s.next w
  | .index w => s.index relocks w
  | .take w response => s.take w response
  | .write w written => s.write w written
  | .close w => s.close w

/-- No download of the run fails. -/
def Succeeds : Event n → Prop
  | .take _ response => response ≠ none
  | _ => True

/-- What a call of `get_next_task` in this state returns, if it returns. -/
def get_next_task (relocks : Bool) (s : DownloadWorkers n) : Option (Option DownloadTask) :=
  match s.task_queue_ with
  | task :: _ => some (some task)
  | [] => if relocks then some (s.get_next_task_index.bind fun i => s.tasks_[i]?) else none

/-- Each task is handed out once: no index twice, what was received is marked in the list, and a
run in which the downloads succeed gets to the point where no task is left. -/
structure HandsOutOnce (relocks : Bool) (n : ℕ) (tasks : List DownloadTask) : Prop where
  once : ∀ s, Reachable (step relocks) (init n tasks) s → s.handed.Nodup
  marked : ∀ s, Reachable (step relocks) (init n tasks) s → ∀ e ∈ s.received,
    ∃ task ∈ s.tasks_[e.1]?, task.completed = true ∧ task.downloaded_bytes = e.2
  ends : ∀ as s, (∀ a ∈ as, Succeeds a) → run (step relocks) (init n tasks) as = some s →
    ∃ bs t, (∀ b ∈ bs, Succeeds b) ∧ run (step relocks) s bs = some t ∧
      t.get_next_task relocks = some none

variable {relocks : Bool} {s t : DownloadWorkers n} {a : Event n} {w : Fin n}

/-- What a step does, and under which condition. -/
inductive Stepped (relocks : Bool) (s : DownloadWorkers n) : Event n → DownloadWorkers n → Prop
  | lock {w : Fin n} (hworker : s.worker w = .looping) (hfree : s.mutex_ = none) :
    Stepped relocks s (.lock w) { s.move w .inside with mutex_ := some w }
  | pops {w : Fin n} {task : DownloadTask} {rest : List DownloadTask}
    (hworker : s.worker w = .inside) (hqueue : s.task_queue_ = task :: rest) :
    Stepped relocks s (.next w)
      { s.move w (.holding none task) with mutex_ := none, task_queue_ := rest }
  | searches {w : Fin n} (hworker : s.worker w = .inside) (hqueue : s.task_queue_ = []) :
    Stepped relocks s (.next w) (s.move w .relocking)
  | hands {w : Fin n} {i : ℕ} {task : DownloadTask} (hworker : s.worker w = .relocking)
    (hrelocks : relocks = true) (hi : s.get_next_task_index = some i)
    (htask : s.tasks_[i]? = some task) :
    Stepped relocks s (.index w)
      { s.move w (.holding (some i) task) with mutex_ := none, handed := s.handed ++ [i] }
  | ends {w : Fin n} (hworker : s.worker w = .relocking) (hrelocks : relocks = true)
    (hnone : s.get_next_task_index = none) :
    Stepped relocks s (.index w) { s.move w .finished with mutex_ := none }
  | skips {w : Fin n} {response i : Option ℕ} {task : DownloadTask}
    (hworker : s.worker w = .holding i task)
    (hskips : (task.completed || task.paused) = true ∨ response = none) :
    Stepped relocks s (.take w response) (s.move w .looping)
  | starts {w : Fin n} {i : Option ℕ} {task : DownloadTask} {body : ℕ}
    (hworker : s.worker w = .holding i task) (hpending : ¬ (task.completed || task.paused) = true) :
    Stepped relocks s (.take w (some body)) (s.move w (.downloading i task body))
  | write {w : Fin n} {written : ℕ} {i : Option ℕ} {task : DownloadTask} {body : ℕ}
    (hworker : s.worker w = .downloading i task body) (hgoes : goesOn task body = true) :
    Stepped relocks s (.write w written)
      (s.move w (.downloading i (wrote task body written) body))
  | close {w : Fin n} {i : Option ℕ} {task : DownloadTask} {body : ℕ}
    (hworker : s.worker w = .downloading i task body) (hstops : ¬ goesOn task body = true) :
    Stepped relocks s (.close w)
      { s.move w .looping with received := s.received ++ i.toList.map (·, body) }

theorem stepped_of_index (h : s.index relocks w = some t) : Stepped relocks s (.index w) t := by
  unfold index at h
  split at h
  next hworker =>
    split at h
    next hrelocks =>
      split at h
      next i hi =>
        obtain ⟨task, htask, rfl⟩ := Option.map_eq_some_iff.mp h
        exact .hands hworker hrelocks hi htask
      next hnone =>
        obtain rfl := Option.some.inj h
        exact .ends hworker hrelocks hnone
    next => cases h
  next => cases h

theorem stepped_of_take {response : Option ℕ} (h : s.take w response = some t) :
    Stepped relocks s (.take w response) t := by
  unfold take at h
  split at h
  next i task hworker =>
    split_ifs at h with hpending
    · obtain rfl := Option.some.inj h
      exact .skips hworker (Or.inl hpending)
    · cases response with
      | some body =>
        obtain rfl := Option.some.inj h
        exact .starts hworker hpending
      | none =>
        obtain rfl := Option.some.inj h
        exact .skips hworker (Or.inr rfl)
  next => cases h

theorem stepped_of_step (h : step relocks s a = some t) : Stepped relocks s a t := by
  cases a with
  | lock w =>
    simp only [step, lock] at h
    split at h
    next hworker hfree =>
      obtain rfl := Option.some.inj h
      exact .lock hworker hfree
    next => cases h
  | next w =>
    simp only [step, next] at h
    split at h
    next hworker =>
      split at h
      next task rest hqueue =>
        obtain rfl := Option.some.inj h
        exact .pops hworker hqueue
      next hqueue =>
        obtain rfl := Option.some.inj h
        exact .searches hworker hqueue
    next => cases h
  | index w => exact stepped_of_index h
  | take w response => exact stepped_of_take h
  | write w written =>
    simp only [step, write] at h
    split at h
    next i task body hworker =>
      split_ifs at h with hgoes
      obtain rfl := Option.some.inj h
      exact .write hworker hgoes
    next => cases h
  | close w =>
    simp only [step, close] at h
    split at h
    next i task body hworker =>
      split_ifs at h with hgoes
      obtain rfl := Option.some.inj h
      exact .close hworker hgoes
    next => cases h

/-- No step writes the list, and nothing is put into the queue. -/
structure Kept (s t : DownloadWorkers n) : Prop where
  tasks : t.tasks_ = s.tasks_
  queue : s.task_queue_ = [] → t.task_queue_ = []

theorem kept_step (h : step relocks s a = some t) : Kept s t := by
  cases stepped_of_step h with
  | pops _ hqueue => exact ⟨rfl, fun hnil => nomatch hqueue.symm.trans hnil⟩
  | _ => exact ⟨rfl, id⟩

/-- So what `get_next_task_index` finds is the same in every state of a run. -/
theorem kept_run {tasks : List DownloadTask}
    (h : Reachable (step relocks) (init n tasks) s) :
    s.tasks_ = tasks ∧ s.task_queue_ = [] := by
  apply reachable_invariant (I := fun s => s.tasks_ = tasks ∧ s.task_queue_ = []) _ _ h
  · exact ⟨rfl, rfl⟩
  · intro s a t ⟨htasks, hqueue⟩ hstep
    have hkept := kept_step hstep
    exact ⟨hkept.tasks.trans htasks, hkept.queue hqueue⟩

theorem get_next_task_eq_some_none (hqueue : s.task_queue_ = []) :
    s.get_next_task relocks = some none ↔ relocks = true ∧ s.get_next_task_index = none := by
  cases relocks with
  | false =>
    simp only [get_next_task, hqueue, Bool.false_eq_true, ↓reduceIte, reduceCtorEq, false_and]
  | true =>
    simp only [get_next_task, hqueue, ↓reduceIte, Option.some.injEq, true_and]
    constructor
    · intro hnone
      cases hi : s.get_next_task_index with
      | none => rfl
      | some i =>
        obtain ⟨hlt, -, -⟩ := List.findIdx?_eq_some_iff_getElem.mp hi
        rw [hi, Option.bind_some, List.getElem?_eq_getElem hlt] at hnone
        cases hnone
    · intro hnone
      rw [hnone, Option.bind_none]

/-- The worker has no task. -/
def Idle : DownloadWorker → Prop
  | .looping | .inside | .relocking | .finished => True
  | .holding _ _ | .downloading _ _ _ => False

theorem idle_update {f : Fin n → DownloadWorker} (hf : ∀ v, Idle (f v)) {at_ : DownloadWorker}
    (hat : Idle at_) (v : Fin n) : Idle (Function.update f w at_ v) := by
  by_cases hv : v = w
  · subst hv
    rwa [Function.update_self]
  · rw [Function.update_of_ne hv]
    exact hf v

/-- With no task to do, nothing is handed out. -/
structure Quiet (s : DownloadWorkers n) : Prop where
  none_left : s.get_next_task_index = none
  queue : s.task_queue_ = []
  idle : ∀ w, Idle (s.worker w)
  handed : s.handed = []
  received : s.received = []

theorem Quiet.idle_of (hs : Quiet s) {at_ : DownloadWorker} (hworker : s.worker w = at_) :
    Idle at_ := by
  rw [← hworker]
  exact hs.idle w

theorem Quiet.step (hs : Quiet s) (h : DownloadWorkers.step relocks s a = some t) : Quiet t := by
  have hkept := kept_step h
  have hindex : t.get_next_task_index = none := by
    rw [get_next_task_index, hkept.tasks]
    exact hs.none_left
  have hqueue : t.task_queue_ = [] := hkept.queue hs.queue
  cases stepped_of_step h with
  | lock | searches | ends =>
    exact ⟨hindex, hqueue, idle_update hs.idle trivial, hs.handed, hs.received⟩
  | pops _ hcons => cases hs.queue.symm.trans hcons
  | hands _ _ hi _ => cases hs.none_left.symm.trans hi
  | skips hworker _ | starts hworker _ | write hworker _ | close hworker _ =>
    exact absurd (hs.idle_of hworker) id

theorem get_next_task_index_init_eq_none {tasks : List DownloadTask} :
    (init n tasks).get_next_task_index = none ↔
      ∀ task ∈ tasks, task.completed = true ∨ task.paused = true := by
  rw [get_next_task_index, init, List.findIdx?_eq_none_iff]
  apply forall_congr'
  intro task
  apply imp_congr_right
  intro _
  cases task.completed <;> cases task.paused <;> decide

theorem quiet_of_reachable {tasks : List DownloadTask}
    (htasks : ∀ task ∈ tasks, task.completed = true ∨ task.paused = true)
    (h : Reachable (DownloadWorkers.step relocks) (init n tasks) s) : Quiet s := by
  apply reachable_invariant _ _ h
  · exact ⟨get_next_task_index_init_eq_none.mpr htasks, rfl, fun _ => trivial, rfl, rfl⟩
  · exact fun _ _ _ hs hstep => hs.step hstep

/-- Each task is handed out once exactly when the mutex could be locked twice by its owner and
there is no task to hand out. -/
theorem handsOutOnce_iff (relocks : Bool) (n : ℕ) (tasks : List DownloadTask) :
    HandsOutOnce relocks n tasks ↔
      relocks = true ∧ ∀ task ∈ tasks, task.completed = true ∨ task.paused = true := by
  constructor
  · intro h
    -- the list never changes, so the end is there from the start or not at all
    obtain ⟨bs, t, -, hrun, hend⟩ := h.ends [] (init n tasks) nofun rfl
    have hkept := kept_run ⟨bs, hrun⟩
    obtain ⟨hrelocks, hnone⟩ := (get_next_task_eq_some_none hkept.2).mp hend
    refine ⟨hrelocks, get_next_task_index_init_eq_none (n := n).mp ?_⟩
    rwa [get_next_task_index, hkept.1] at hnone
  · rintro ⟨rfl, htasks⟩
    constructor
    · intro s hs
      rw [(quiet_of_reachable htasks hs).handed]
      exact List.nodup_nil
    · intro s hs e he
      rw [(quiet_of_reachable htasks hs).received] at he
      exact absurd he List.not_mem_nil
    · intro as s _ hrun
      have hquiet := quiet_of_reachable htasks ⟨as, hrun⟩
      refine ⟨[], s, nofun, rfl, ?_⟩
      exact (get_next_task_eq_some_none hquiet.queue).mpr ⟨rfl, hquiet.none_left⟩

/-- One round of a worker that downloads the task of index `i` with success. -/
def round (w : Fin n) (body : ℕ) : List (Event n) :=
  [.lock w, .next w, .index w, .take w (some body), .write w body, .close w]

/-- A worker that is about to call `get_next_task`, which nobody else is in. -/
structure Ready (s : DownloadWorkers n) (w : Fin n) : Prop where
  looping : s.worker w = .looping
  free : s.mutex_ = none
  queue : s.task_queue_ = []

/-- After the round the worker is where it was, with the index handed out once more. -/
theorem run_round (h : Ready s w) {i body : ℕ} (hi : s.get_next_task_index = some i)
    (hbody : 0 < body) :
    ∃ t, run (DownloadWorkers.step true) s (round w body) = some t ∧ Ready t w ∧
      t.tasks_ = s.tasks_ ∧ t.handed = s.handed ++ [i] ∧
      t.received = s.received ++ [(i, body)] := by
  obtain ⟨hlt, hpending, -⟩ := List.findIdx?_eq_some_iff_getElem.mp hi
  have htask : s.tasks_[i]? = some s.tasks_[i] := List.getElem?_eq_getElem hlt
  generalize s.tasks_[i] = task at htask hpending
  obtain ⟨hcompleted, hpaused⟩ : task.completed = false ∧ task.paused = false := by
    simpa using hpending
  have hgo : goesOn task body = true := by
    simp only [goesOn, hcompleted, hpaused, Bool.not_false, Bool.and_true, decide_eq_true_eq]
    omega
  -- the body is written at once, so the copy is complete
  have hstop : goesOn (wrote task body body) body = false := by
    have hle : body ≤ task.downloaded_bytes + body := by omega
    simp only [goesOn, wrote, hle, decide_true, Bool.or_true, Bool.not_true, Bool.and_false,
      Bool.false_and]
  refine ⟨{ s with
    worker := Function.update s.worker w .looping
    mutex_ := none
    handed := s.handed ++ [i]
    received := s.received ++ [(i, body)] }, ?_, ⟨Function.update_self .., rfl, h.queue⟩, rfl, rfl,
    rfl⟩
  have hindex (f : Fin n → DownloadWorker) (m : Option (Fin n)) :
      get_next_task_index { s with worker := f, mutex_ := m, task_queue_ := [] } = some i := hi
  simp only [round, run, step, lock, h.looping, h.free, Option.bind_some, next, move,
    Function.update_self, h.queue, index, ↓reduceIte, hindex, htask, Option.map_some, take,
    hcompleted, hpaused, Bool.or_self, Bool.false_eq_true, write, hgo, close, hstop,
    Function.update_idem, Option.toList_some, List.map_cons, List.map_nil]

/-- Any task that is there to do is handed out and received as often as one likes. -/
theorem exists_run_handed_replicate {tasks : List DownloadTask} {i : ℕ}
    (hi : (init n tasks).get_next_task_index = some i) (w : Fin n) {body : ℕ} (hbody : 0 < body)
    (k : ℕ) :
    ∃ as s, (∀ a ∈ as, Succeeds a) ∧ run (step true) (init n tasks) as = some s ∧ Ready s w ∧
      s.tasks_ = tasks ∧ s.handed = List.replicate k i ∧
      s.received = List.replicate k (i, body) := by
  induction k with
  | zero => exact ⟨[], init n tasks, nofun, rfl, ⟨rfl, rfl, rfl⟩, rfl, rfl, rfl⟩
  | succ k ih =>
    obtain ⟨as, s, has, hrun, hready, htasks, hhanded, hreceived⟩ := ih
    have hindex : s.get_next_task_index = some i := by
      rw [get_next_task_index, htasks]
      exact hi
    obtain ⟨t, hround, hready', htasks', hhanded', hreceived'⟩ := run_round hready hindex hbody
    refine ⟨as ++ round w body, t, ?_, run_append hrun hround, hready', htasks'.trans htasks, ?_,
      ?_⟩
    · intro a ha
      rcases List.mem_append.mp ha with ha | ha
      · exact has a ha
      · simp only [round, List.mem_cons, List.not_mem_nil, or_false] at ha
        rcases ha with rfl | rfl | rfl | rfl | rfl | rfl <;> simp only [Succeeds, ne_eq,
          reduceCtorEq, not_false_eq_true]
    · rw [hhanded', hhanded, List.replicate_succ']
    · rw [hreceived', hreceived, List.replicate_succ']

/-- One task to do, one worker: without a second lock `get_next_task` never returns, and with it
the task is handed out again after its download. -/
theorem not_handsOutOnce_one_task :
    ¬ HandsOutOnce false 1 [.pending (bytes "http://a/b") (bytes "b") 0] ∧
      ¬ HandsOutOnce true 1 [.pending (bytes "http://a/b") (bytes "b") 0] := by
  constructor
  · intro h
    obtain ⟨bs, t, -, hrun, hend⟩ := h.ends [] _ nofun rfl
    have hqueue := (kept_run ⟨bs, hrun⟩).2
    rw [get_next_task, hqueue] at hend
    cases hend
  · intro h
    have hindex : (init 1 [.pending (bytes "http://a/b") (bytes "b") 0]).get_next_task_index =
        some 0 := by
      decide
    obtain ⟨as, s, -, hrun, -, -, hhanded, -⟩ :=
      exists_run_handed_replicate hindex 0 Nat.one_pos 2
    have honce := h.once s ⟨as, hrun⟩
    rw [hhanded] at honce
    exact absurd honce (by decide)

end DownloadWorkers

end OpenAPT
