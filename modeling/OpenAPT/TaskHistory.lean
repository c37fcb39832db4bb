import OpenAPT.TaskManager

/-! The whole interface of the task manager, its members called one after another in any order: what
the calls together say about the tasks that were executed, and what a stop between them does. -/
namespace OpenAPT

variable {P σ : Type}

/-- A call of a member of `TaskManager`. -/
inductive TaskCall (P : Type)
  | addTask (task : Option P) (canExecute : Bool)
  | edit (e : TaskEdit P)
  | deleteTask (taskIndex : ℤ)
  | deleteTaskByName (name : Bytes)
  | executeAllTasks
  | executeTaskByName (name : Bytes)
  | stopTask
  | queryTaskByName (name : Bytes)

def TaskCall.isStopTask : TaskCall P → Bool
  | .stopTask => true
  | _ => false

/-- The manager with its `skipList` between two calls, the rest of the program, the errors logged so
far, and what was executed. -/
structure TaskSession (P σ : Type) where
  manager : TaskManager P σ
  skipList : List ℤ
  state : σ
  errors : List Bytes
  executions : List (Execution P)
  executionsByName : List (Execution P)

namespace TaskManager

variable [DecidableEq P]

def addTask (m : TaskManager P σ) (task : Option P) (canExecute : Bool) :
    Option Bytes × TaskManager P σ :=
  match task with
  | none => (some (bytes "Cannot add empty task!"), m)
  | some task =>
    let m := m.setCanExecute task canExecute
    (none, { m with m_taskList := m.m_taskList ++ [task] })

/-- The predicate of the `find_if` that the members by name have. -/
def named (m : TaskManager P σ) (name : Bytes) (task : P) : Bool := (m.objects task).name_ = name

/-- `deleteTask`. The index is also taken out of the `skipList`. -/
def deleteTask (m : TaskManager P σ) (skipList : List ℤ) (taskIndex : ℤ) :
    Option Bytes × TaskManager P σ × List ℤ :=
  if taskIndex < 0 ∨ (m.m_taskList.length : ℤ) ≤ taskIndex then
    (some (bytes "Task index out of range!"), m, skipList)
  else
    (none, { m with m_taskList := m.m_taskList.eraseIdx taskIndex.toNat },
      skipList.erase taskIndex)

def deleteTaskByName (m : TaskManager P σ) (skipList : List ℤ) (name : Bytes) :
    Option Bytes × TaskManager P σ × List ℤ :=
  match m.m_taskList.findIdx? (m.named name) with
  | none => (some (bytes "Task name not found!"), m, skipList)
  | some actualIndex =>
    (none, { m with m_taskList := m.m_taskList.eraseIdx actualIndex }, skipList.erase ↑actualIndex)

/-- `executeTaskByName`: unlike `executeAllTasks`, it does not make the task the current one, and it
does not count it. -/
def executeTaskByName (execute : P → σ → TaskBody σ) (m : TaskManager P σ) (s : σ) (name : Bytes) :
    Option Bytes × ExecuteRun P σ :=
  match m.m_taskList.find? (m.named name) with
  | none => (some (bytes "Task name not found!"), ⟨m, s, []⟩)
  | some task =>
    if (m.objects task).can_execute_ then
      let ran := runTask (execute task s) m
      (none, ⟨ran.manager, ran.state, [⟨task, ran.stopTaskCalls, ran.result⟩]⟩)
    else (none, ⟨m, s, []⟩)

/-- `queryTaskByName` only logs. -/
def queryTaskByName (m : TaskManager P σ) (name : Bytes) : Option Bytes :=
  if m.m_taskList.any (m.named name) then none else some (bytes "Task name not found!")

/-- The task that a call gives a flag, and the flag. A call by index gives it before it looks at the
index, a call by name only after the name was found. -/
def request (m : TaskManager P σ) : TaskCall P → Option (P × Bool)
  | .addTask (some task) canExecute => some (task, canExecute)
  | .edit (.insertTask _ (some task) canExecute) => some (task, canExecute)
  | .edit (.modifyTask _ (some task) canExecute) => some (task, canExecute)
  | .edit (.modifyTaskByName name (some task) canExecute) =>
    if m.m_taskList.any (m.named name) then some (task, canExecute) else none
  | _ => none

end TaskManager

namespace TaskSession

variable [DecidableEq P]

/-- One call. -/
def call (execute : P → σ → TaskBody σ) (r : TaskSession P σ) : TaskCall P → TaskSession P σ
  | .addTask task canExecute =>
    let e := r.manager.addTask task canExecute
    { r with manager := e.2, errors := r.errors ++ e.1.toList }
  | .edit e =>
    let e := r.manager.edit e
    { r with manager := e.2, errors := r.errors ++ e.1.toList }
  | .deleteTask taskIndex =>
    let e := r.manager.deleteTask r.skipList taskIndex
    { r with manager := e.2.1, skipList := e.2.2, errors := r.errors ++ e.1.toList }
  | .deleteTaskByName name =>
    let e := r.manager.deleteTaskByName r.skipList name
    { r with manager := e.2.1, skipList := e.2.2, errors := r.errors ++ e.1.toList }
  | .executeAllTasks =>
    let e := r.manager.executeAllTasks execute r.state
    { r with manager := e.manager, state := e.state, executions := r.executions ++ e.executions }
  | .executeTaskByName name =>
    let e := r.manager.executeTaskByName execute r.state name
    { r with
      manager := e.2.manager
      state := e.2.state
      errors := r.errors ++ e.1.toList
      executionsByName := r.executionsByName ++ e.2.executions }
  | .stopTask =>
    let e := r.manager.stopTask r.state
    { r with manager := e.2.1, state := e.2.2 }
  | .queryTaskByName name =>
    { r with errors := r.errors ++ (r.manager.queryTaskByName name).toList }

/-- One call after another. -/
def calls (execute : P → σ → TaskBody σ) (r : TaskSession P σ) (l : List (TaskCall P)) :
    TaskSession P σ :=
  l.foldl (call execute) r

/-- The flags that the calls give, in their order. -/
def requests (execute : P → σ → TaskBody σ) :
    TaskSession P σ → List (TaskCall P) → List (P × Bool)
  | _, [] => []
  | r, c :: l => (r.manager.request c).toList ++ requests execute (r.call execute c) l

/-- What a call executes. -/
def executed (execute : P → σ → TaskBody σ) (r : TaskSession P σ) : TaskCall P → List (Execution P)
  | .executeAllTasks => (r.manager.executeAllTasks execute r.state).executions
  | .executeTaskByName name => (r.manager.executeTaskByName execute r.state name).2.executions
  | _ => []

/-- The flag of the last request for a task, or else `flag`. -/
def lastFlag (task : P) (flag : Bool) (l : List (P × Bool)) : Bool :=
  ((l.reverse.find? fun q => q.1 = task).map Prod.snd).getD flag

/-! ### The flags -/

theorem lastFlag_append (task : P) (flag : Bool) (l l' : List (P × Bool)) :
    lastFlag task flag (l ++ l') = lastFlag task (lastFlag task flag l) l' := by
  unfold lastFlag
  rw [List.reverse_append, List.find?_append]
  cases l'.reverse.find? fun q => q.1 = task with
  | none => rfl
  | some q => rfl

theorem lastFlag_singleton (task p : P) (flag canExecute : Bool) :
    lastFlag p flag [(task, canExecute)] = if task = p then canExecute else flag := by
  unfold lastFlag
  by_cases hp : task = p
  · simp only [List.reverse_singleton, List.find?_singleton, hp, decide_true, ↓reduceIte,
      Option.map_some, Option.getD_some]
  · simp only [List.reverse_singleton, List.find?_singleton, hp, decide_false, Bool.false_eq_true,
      ↓reduceIte, Option.map_none, Option.getD_none]

theorem can_execute_setCanExecute (m : TaskManager P σ) (task p : P) (canExecute : Bool) :
    ((m.setCanExecute task canExecute).objects p).can_execute_ =
      lastFlag p (m.objects p).can_execute_ [(task, canExecute)] := by
  rw [lastFlag_singleton]
  by_cases hp : task = p
  · subst hp
    simp only [TaskManager.setCanExecute, Function.update_self, ↓reduceIte]
  · have hne : p ≠ task := fun h => hp h.symm
    simp only [TaskManager.setCanExecute, Function.update_of_ne hne, hp, ↓reduceIte]

theorem can_execute_edit (m : TaskManager P σ) (e : TaskEdit P) (p : P) :
    ((m.edit e).2.objects p).can_execute_ =
      lastFlag p (m.objects p).can_execute_ (m.request (.edit e)).toList := by
  cases e with
  | insertTask taskIndex task canExecute =>
    cases task with
    | none => rfl
    | some task =>
      have hflag := can_execute_setCanExecute m task p canExecute
      simp only [TaskManager.edit, TaskManager.insertTask, TaskManager.request]
      split_ifs
      · exact hflag
      · exact hflag
  | modifyTask taskIndex task canExecute =>
    cases task with
    | none => rfl
    | some task =>
      have hflag := can_execute_setCanExecute m task p canExecute
      simp only [TaskManager.edit, TaskManager.modifyTask, TaskManager.request]
      split_ifs
      · exact hflag
      · exact hflag
  | modifyTaskByName name task canExecute =>
    -- the name is looked for first, and `request` looks for it too
    have hfound : (m.m_taskList.findIdx? (m.named name)).isSome =
        m.m_taskList.any (m.named name) := List.findIdx?_isSome
    have hedit : m.edit (.modifyTaskByName name task canExecute) =
        match m.m_taskList.findIdx? (m.named name) with
        | none => (some (bytes "Task name not found!"), m)
        | some iter =>
          match task with
          | none => (some (bytes "Cannot modify with empty task!"), m)
          | some task =>
            (none, { m.setCanExecute task canExecute with
              m_taskList := m.m_taskList.set iter task }) := rfl
    rw [hedit]
    cases hiter : m.m_taskList.findIdx? (m.named name) with
    | none =>
      rw [hiter] at hfound
      cases task with
      | none => rfl
      | some task =>
        have hrequest : m.request (.edit (.modifyTaskByName name (some task) canExecute)) = none :=
          if_neg (by rw [← hfound]; exact Bool.false_ne_true)
        rw [hrequest]
        rfl
    | some iter =>
      rw [hiter] at hfound
      cases task with
      | none => rfl
      | some task =>
        have hrequest : m.request (.edit (.modifyTaskByName name (some task) canExecute)) =
            some (task, canExecute) := if_pos hfound.symm
        rw [hrequest]
        exact can_execute_setCanExecute m task p canExecute

theorem can_execute_executeAllTasks (execute : P → σ → TaskBody σ) (m : TaskManager P σ) (s : σ)
    (p : P) :
    ((m.executeAllTasks execute s).manager.objects p).can_execute_ =
      (m.objects p).can_execute_ :=
  (TaskManager.progress_foldl execute m.m_taskList (TaskManager.progress_start m s)).can_execute_ p

theorem sameTasks_executeTaskByName (execute : P → σ → TaskBody σ) (m : TaskManager P σ) (s : σ)
    (name : Bytes) : TaskManager.SameTasks m (m.executeTaskByName execute s name).2.manager := by
  unfold TaskManager.executeTaskByName
  split
  · exact ⟨rfl, fun _ => rfl, rfl⟩
  · split_ifs
    · exact (TaskManager.runTask_spec _ m).1
    · exact ⟨rfl, fun _ => rfl, rfl⟩

/-- After one call every task has the flag the call gives it, or else the one it had. -/
theorem can_execute_call (execute : P → σ → TaskBody σ) (r : TaskSession P σ) (c : TaskCall P)
    (p : P) :
    ((r.call execute c).manager.objects p).can_execute_ =
      lastFlag p (r.manager.objects p).can_execute_ (r.manager.request c).toList := by
  cases c with
  | addTask task canExecute =>
    cases task with
    | none => rfl
    | some task => exact can_execute_setCanExecute r.manager task p canExecute
  | edit e => exact can_execute_edit r.manager e p
  | deleteTask taskIndex =>
    simp only [call, TaskManager.deleteTask]
    split_ifs
    · rfl
    · rfl
  | deleteTaskByName name =>
    simp only [call, TaskManager.deleteTaskByName]
    split
    · rfl
    · rfl
  | executeAllTasks => exact can_execute_executeAllTasks execute r.manager r.state p
  | executeTaskByName name =>
    exact (sameTasks_executeTaskByName execute r.manager r.state name).can_execute_ p
  | stopTask => exact (TaskManager.stopTask_spec r.manager r.state).1.can_execute_ p
  | queryTaskByName name => rfl

theorem can_execute_calls (execute : P → σ → TaskBody σ) (r : TaskSession P σ)
    (l : List (TaskCall P)) (p : P) :
    ((r.calls execute l).manager.objects p).can_execute_ =
      lastFlag p (r.manager.objects p).can_execute_ (requests execute r l) := by
  -- the requests of a run depend on the sessions it passes, so the session is general
  induction l generalizing r with
  | nil => rfl
  | cons c l ih =>
    have hstep : r.calls execute (c :: l) = (r.call execute c).calls execute l := rfl
    rw [hstep, ih, can_execute_call, requests, lastFlag_append]

/-! ### The list -/

omit [DecidableEq P] in
theorem mem_of_mem_insertIdx {l : List P} {i : ℕ} {task p : P} (h : p ∈ l.insertIdx i task) :
    p ∈ l ∨ p = task := by
  by_cases hi : i ≤ l.length
  · rcases (List.mem_insertIdx hi).mp h with hp | hp
    · exact Or.inr hp
    · exact Or.inl hp
  · rw [List.insertIdx_of_length_lt (Nat.lt_of_not_le hi)] at h
    exact Or.inl h

theorem mem_edit {m : TaskManager P σ} {e : TaskEdit P} {p : P}
    (h : p ∈ (m.edit e).2.m_taskList) :
    p ∈ m.m_taskList ∨ ∃ flag, m.request (.edit e) = some (p, flag) := by
  cases e with
  | insertTask taskIndex task canExecute =>
    cases task with
    | none => exact Or.inl h
    | some task =>
      simp only [TaskManager.edit, TaskManager.insertTask] at h
      split_ifs at h
      · exact Or.inl h
      · rcases mem_of_mem_insertIdx h with hp | rfl
        · exact Or.inl hp
        · exact Or.inr ⟨canExecute, rfl⟩
  | modifyTask taskIndex task canExecute =>
    cases task with
    | none => exact Or.inl h
    | some task =>
      simp only [TaskManager.edit, TaskManager.modifyTask] at h
      split_ifs at h
      · exact Or.inl h
      · rcases List.mem_or_eq_of_mem_set h with hp | rfl
        · exact Or.inl hp
        · exact Or.inr ⟨canExecute, rfl⟩
  | modifyTaskByName name task canExecute =>
    simp only [TaskManager.edit, TaskManager.modifyTaskByName] at h
    split at h
    · exact Or.inl h
    · rename_i iter hiter
      cases task with
      | none => exact Or.inl h
      | some task =>
        have hany : m.m_taskList.any (m.named name) = true := by
          rw [← List.findIdx?_isSome]
          exact Option.isSome_of_eq_some hiter
        rcases List.mem_or_eq_of_mem_set h with hp | rfl
        · exact Or.inl hp
        · exact Or.inr ⟨canExecute, if_pos hany⟩

theorem m_taskList_executeTask (execute : P → σ → TaskBody σ) (r : ExecuteRun P σ) (task : P) :
    (TaskManager.executeTask execute r task).manager.m_taskList = r.manager.m_taskList := by
  have hran := (TaskManager.runTask_spec (execute task r.state)
    { r.manager with m_CurrentTask := some task }).1.m_taskList
  unfold TaskManager.executeTask
  split_ifs
  · rfl
  · dsimp only
    split
    · exact hran
    · exact hran
  · rfl

theorem m_taskList_executeAllTasks (execute : P → σ → TaskBody σ) (m : TaskManager P σ) (s : σ) :
    (m.executeAllTasks execute s).manager.m_taskList = m.m_taskList := by
  have hfold (tasks : List P) (r : ExecuteRun P σ) :
      (tasks.foldl (TaskManager.executeTask execute) r).manager.m_taskList =
        r.manager.m_taskList := by
    induction tasks generalizing r with
    | nil => rfl
    | cons task tasks ih =>
      rw [List.foldl_cons, ih]
      exact m_taskList_executeTask execute r task
  exact hfold m.m_taskList _

/-- A call adds only the task that it gives a flag. -/
theorem mem_call {execute : P → σ → TaskBody σ} {r : TaskSession P σ} {c : TaskCall P} {p : P}
    (h : p ∈ (r.call execute c).manager.m_taskList) :
    p ∈ r.manager.m_taskList ∨ ∃ flag, r.manager.request c = some (p, flag) := by
  cases c with
  | addTask task canExecute =>
    cases task with
    | none => exact Or.inl h
    | some task =>
      rcases List.mem_append.mp h with hp | hp
      · exact Or.inl hp
      · rw [List.mem_singleton.mp hp]
        exact Or.inr ⟨canExecute, rfl⟩
  | edit e => exact mem_edit h
  | deleteTask taskIndex =>
    simp only [call, TaskManager.deleteTask] at h
    split_ifs at h
    · exact Or.inl h
    · exact Or.inl (List.mem_of_mem_eraseIdx h)
  | deleteTaskByName name =>
    simp only [call, TaskManager.deleteTaskByName] at h
    split at h
    · exact Or.inl h
    · exact Or.inl (List.mem_of_mem_eraseIdx h)
  | executeAllTasks =>
    left
    have hlist : (r.manager.executeAllTasks execute r.state).manager.m_taskList =
        r.manager.m_taskList := m_taskList_executeAllTasks execute r.manager r.state
    rw [← hlist]
    exact h
  | executeTaskByName name =>
    left
    rw [← (sameTasks_executeTaskByName execute r.manager r.state name).m_taskList]
    exact h
  | stopTask =>
    left
    rw [← (TaskManager.stopTask_spec r.manager r.state).1.m_taskList]
    exact h
  | queryTaskByName name => exact Or.inl h

theorem mem_calls {execute : P → σ → TaskBody σ} {r : TaskSession P σ} {l : List (TaskCall P)}
    {p : P} (h : p ∈ (r.calls execute l).manager.m_taskList) :
    p ∈ r.manager.m_taskList ∨ ∃ flag, (p, flag) ∈ requests execute r l := by
  induction l generalizing r with
  | nil => exact Or.inl h
  | cons c l ih =>
    rcases ih h with hmem | ⟨flag, hflag⟩
    · rcases mem_call hmem with hp | ⟨flag, hp⟩
      · exact Or.inl hp
      · refine Or.inr ⟨flag, List.mem_append_left _ ?_⟩
        rw [hp]
        exact List.mem_singleton_self _
    · exact Or.inr ⟨flag, List.mem_append_right _ hflag⟩

/-! ### What is executed -/

theorem executed_executable {execute : P → σ → TaskBody σ} {r : TaskSession P σ} {c : TaskCall P}
    {e : Execution P} (h : e ∈ r.executed execute c) :
    e.task ∈ r.manager.m_taskList ∧ (r.manager.objects e.task).can_execute_ = true := by
  cases c with
  | executeAllTasks =>
    -- the tasks executed are, in order, some of those that the list has and that are executable
    have hprogress := TaskManager.progress_foldl execute r.manager.m_taskList
      (TaskManager.progress_start r.manager r.state)
    have hmem : e.task ∈ r.manager.m_taskList.filter
        fun p => (r.manager.objects p).can_execute_ := by
      apply hprogress.executed.in_order.subset
      exact List.mem_map_of_mem h
    exact List.mem_filter.mp hmem
  | executeTaskByName name =>
    simp only [executed, TaskManager.executeTaskByName] at h
    split at h
    · exact absurd h List.not_mem_nil
    · rename_i task hfind
      split_ifs at h with hflag
      · rw [List.mem_singleton.mp h]
        exact ⟨List.mem_of_find?_eq_some hfind, hflag⟩
      · exact absurd h List.not_mem_nil
  | _ => exact absurd h List.not_mem_nil

/-- The manager as its default constructor leaves it, among the tasks of the program. -/
def new (objects : P → BasicTask σ) (s : σ) : TaskSession P σ where
  manager := ⟨objects, [], 0, false, none⟩
  skipList := []
  state := s
  errors := []
  executions := []
  executionsByName := []

/-- Whatever is executed was given by a call, and the last call that gave it, whether its request
was then rejected or not, asked for it to be executable. -/
theorem executed_as_requested (execute : P → σ → TaskBody σ) (objects : P → BasicTask σ) (s : σ)
    (before : List (TaskCall P)) (c : TaskCall P) (e : Execution P)
    (h : e ∈ ((new objects s).calls execute before).executed execute c) :
    (requests execute (new objects s) before).reverse.find? (fun q => q.1 = e.task) =
      some (e.task, true) := by
  obtain ⟨hmem, hflag⟩ := executed_executable h
  rw [can_execute_calls] at hflag
  -- the list was empty at first, so there is a request for the task
  have hrequest : ∃ flag, (e.task, flag) ∈ requests execute (new objects s) before := by
    rcases mem_calls hmem with hstart | hrequest
    · exact absurd hstart List.not_mem_nil
    · exact hrequest
  obtain ⟨flag, hrequest⟩ := hrequest
  cases hlast : (requests execute (new objects s) before).reverse.find?
      fun q => q.1 = e.task with
  | none =>
    -- a request there is cannot be missed
    have hnot := List.find?_eq_none.mp hlast (e.task, flag) (List.mem_reverse.mpr hrequest)
    exact absurd (decide_eq_true rfl) hnot
  | some q =>
    -- the flag of the task is that of its last request
    have hq := List.find?_some hlast
    have htask : q.1 = e.task := of_decide_eq_true hq
    have hasked : q.2 = true := by
      simp only [lastFlag, hlast, Option.map_some, Option.getD_some] at hflag
      exact hflag
    rw [← htask, ← hasked]

/-- Adding a task, and inserting it again out of range as one that is not to be executed. -/
def addThenReject : List (TaskCall Unit) :=
  [.addTask (some ()) false, .edit (.insertTask 7 (some ()) true)]

/-- A task that was added as not executable, and then given to a rejected call. -/
theorem executed_as_requested_rejected :
    (requests (fun _ s => .finish (.ok ()) s) (new (fun _ => BasicTask.make 0 none) ())
      addThenReject).reverse.find? (fun q => q.1 = ()) = some ((), true) :=
  executed_as_requested (fun _ s => .finish (.ok ()) s) (fun _ => BasicTask.make 0 none) ()
    addThenReject .executeAllTasks ⟨(), 0, .ok ()⟩ (List.mem_singleton_self _)

/-! ### Stops between the calls -/

/-- Between two calls there is no current task, nothing was ever put into the `skipList`, and the
count is that of the tasks `executeAllTasks` executed without an exception. -/
structure Idle (r : TaskSession P σ) : Prop where
  m_CurrentTask : r.manager.m_CurrentTask = none
  skipList : r.skipList = []
  m_completedTaskCount :
    r.manager.m_completedTaskCount = r.executions.countP fun e => e.result.isOk

/-- The session without its stop flag. -/
def forget (r : TaskSession P σ) : TaskSession P σ :=
  { r with manager := { r.manager with m_StopFlag := false } }

/-- Without a current task a body only sets the stop flag, and does not depend on it. -/
theorem runTask_of_idle (body : TaskBody σ) :
    ∃ stopTaskCalls result state, ∀ m : TaskManager P σ, m.m_CurrentTask = none →
      ∃ stopFlag, TaskManager.runTask body m =
        ⟨stopTaskCalls, result, { m with m_StopFlag := stopFlag }, state⟩ := by
  induction body with
  | finish result s => exact ⟨0, result, s, fun m _ => ⟨m.m_StopFlag, rfl⟩⟩
  | stopTask s resume ih =>
    -- `stopTask` finds no current task, so it throws nothing and the state goes on as it was
    obtain ⟨stopTaskCalls, result, state, hrest⟩ := ih (.ok ()) s
    refine ⟨stopTaskCalls + 1, result, state, fun m hm => ?_⟩
    have hstop : m.stopTask s = (.ok (), { m with m_StopFlag := true }, s) := by
      unfold TaskManager.stopTask
      rw [hm]
    obtain ⟨stopFlag, hran⟩ := hrest { m with m_StopFlag := true } hm
    refine ⟨stopFlag, ?_⟩
    rw [TaskManager.runTask, hstop]
    dsimp only
    rw [hran]

theorem stopTask_of_idle {m : TaskManager P σ} (h : m.m_CurrentTask = none) (s : σ) :
    m.stopTask s = (.ok (), { m with m_StopFlag := true }, s) := by
  unfold TaskManager.stopTask
  rw [h]

/-- A task executed by name leaves the manager as it was, except for the stop flag. -/
theorem executeTaskByName_of_idle (execute : P → σ → TaskBody σ) (s : σ) (name : Bytes)
    {m : TaskManager P σ} (h : m.m_CurrentTask = none) (flag : Bool) :
    ∃ error state executions stopFlag stopFlag',
      m.executeTaskByName execute s name =
        (error, ⟨{ m with m_StopFlag := stopFlag }, state, executions⟩) ∧
      ({ m with m_StopFlag := flag } : TaskManager P σ).executeTaskByName execute s name =
        (error, ⟨{ m with m_StopFlag := stopFlag' }, state, executions⟩) := by
  unfold TaskManager.executeTaskByName
  -- the flag has no part in finding the task
  have hnamed : ({ m with m_StopFlag := flag } : TaskManager P σ).named name = m.named name := rfl
  dsimp only
  rw [hnamed]
  cases m.m_taskList.find? (m.named name) with
  | none => exact ⟨_, _, _, m.m_StopFlag, flag, rfl, rfl⟩
  | some task =>
    obtain ⟨stopTaskCalls, result, state, hran⟩ := runTask_of_idle (P := P) (execute task s)
    obtain ⟨stopFlag, hm⟩ := hran m h
    obtain ⟨stopFlag', hm'⟩ := hran { m with m_StopFlag := flag } h
    dsimp only
    split_ifs
    · rw [hm, hm']
      exact ⟨_, _, _, stopFlag, stopFlag', rfl, rfl⟩
    · exact ⟨_, _, _, m.m_StopFlag, flag, rfl, rfl⟩

omit [DecidableEq P] in
theorem idle_new (objects : P → BasicTask σ) (s : σ) : Idle (new objects s) := ⟨rfl, rfl, rfl⟩

theorem idle_edit {m : TaskManager P σ} (e : TaskEdit P) :
    (m.edit e).2.m_CurrentTask = m.m_CurrentTask ∧
      (m.edit e).2.m_completedTaskCount = m.m_completedTaskCount := by
  cases e with
  | insertTask taskIndex task canExecute =>
    cases task with
    | none => exact ⟨rfl, rfl⟩
    | some task =>
      simp only [TaskManager.edit, TaskManager.insertTask]
      split_ifs
      · exact ⟨rfl, rfl⟩
      · exact ⟨rfl, rfl⟩
  | modifyTask taskIndex task canExecute =>
    cases task with
    | none => exact ⟨rfl, rfl⟩
    | some task =>
      simp only [TaskManager.edit, TaskManager.modifyTask]
      split_ifs
      · exact ⟨rfl, rfl⟩
      · exact ⟨rfl, rfl⟩
  | modifyTaskByName name task canExecute =>
    simp only [TaskManager.edit, TaskManager.modifyTaskByName]
    split
    · exact ⟨rfl, rfl⟩
    · cases task with
      | none => exact ⟨rfl, rfl⟩
      | some task => exact ⟨rfl, rfl⟩

theorem Idle.call {r : TaskSession P σ} (h : Idle r) (execute : P → σ → TaskBody σ)
    (c : TaskCall P) : Idle (r.call execute c) := by
  cases c with
  | addTask task canExecute =>
    cases task with
    | none => exact ⟨h.m_CurrentTask, h.skipList, h.m_completedTaskCount⟩
    | some task => exact ⟨h.m_CurrentTask, h.skipList, h.m_completedTaskCount⟩
  | edit e =>
    obtain ⟨hcurrent, hcount⟩ := idle_edit (m := r.manager) e
    exact ⟨hcurrent.trans h.m_CurrentTask, h.skipList, hcount.trans h.m_completedTaskCount⟩
  | deleteTask taskIndex =>
    simp only [TaskSession.call, TaskManager.deleteTask, h.skipList, List.erase_nil]
    split_ifs
    · exact ⟨h.m_CurrentTask, rfl, h.m_completedTaskCount⟩
    · exact ⟨h.m_CurrentTask, rfl, h.m_completedTaskCount⟩
  | deleteTaskByName name =>
    simp only [TaskSession.call, TaskManager.deleteTaskByName, h.skipList, List.erase_nil]
    split
    · exact ⟨h.m_CurrentTask, rfl, h.m_completedTaskCount⟩
    · exact ⟨h.m_CurrentTask, rfl, h.m_completedTaskCount⟩
  | executeAllTasks =>
    have hprogress := TaskManager.progress_foldl execute r.manager.m_taskList
      (TaskManager.progress_start r.manager r.state)
    refine ⟨hprogress.m_CurrentTask, h.skipList, ?_⟩
    have hcount : (r.manager.executeAllTasks execute r.state).manager.m_completedTaskCount =
        r.manager.m_completedTaskCount +
          (r.manager.executeAllTasks execute r.state).executions.countP
            fun e => e.result.isOk := hprogress.m_completedTaskCount
    show (r.manager.executeAllTasks execute r.state).manager.m_completedTaskCount =
      (r.executions ++ (r.manager.executeAllTasks execute r.state).executions).countP _
    rw [hcount, h.m_completedTaskCount, List.countP_append]
  | executeTaskByName name =>
    obtain ⟨error, state, executions, stopFlag, stopFlag', hrun, -⟩ :=
      executeTaskByName_of_idle execute r.state name h.m_CurrentTask false
    simp only [TaskSession.call, hrun]
    exact ⟨h.m_CurrentTask, h.skipList, h.m_completedTaskCount⟩
  | stopTask =>
    simp only [TaskSession.call, stopTask_of_idle h.m_CurrentTask]
    exact ⟨h.m_CurrentTask, h.skipList, h.m_completedTaskCount⟩
  | queryTaskByName name => exact ⟨h.m_CurrentTask, h.skipList, h.m_completedTaskCount⟩

theorem forget_edit (m : TaskManager P σ) (e : TaskEdit P) (flag : Bool) :
    (m.edit e).1 = (({ m with m_StopFlag := flag } : TaskManager P σ).edit e).1 ∧
      ({ (m.edit e).2 with m_StopFlag := flag } : TaskManager P σ) =
        (({ m with m_StopFlag := flag } : TaskManager P σ).edit e).2 := by
  cases e with
  | insertTask taskIndex task canExecute =>
    cases task with
    | none => exact ⟨rfl, rfl⟩
    | some task =>
      by_cases hrange : taskIndex < 0 ∨ (m.m_taskList.length : ℤ) < taskIndex
      · simp only [TaskManager.edit, TaskManager.insertTask, TaskManager.setCanExecute, hrange,
          ↓reduceIte, and_self]
      · simp only [TaskManager.edit, TaskManager.insertTask, TaskManager.setCanExecute, hrange,
          ↓reduceIte, and_self]
  | modifyTask taskIndex task canExecute =>
    cases task with
    | none => exact ⟨rfl, rfl⟩
    | some task =>
      by_cases hrange : taskIndex < 0 ∨ (m.m_taskList.length : ℤ) ≤ taskIndex
      · simp only [TaskManager.edit, TaskManager.modifyTask, TaskManager.setCanExecute, hrange,
          ↓reduceIte, and_self]
      · simp only [TaskManager.edit, TaskManager.modifyTask, TaskManager.setCanExecute, hrange,
          ↓reduceIte, and_self]
  | modifyTaskByName name task canExecute =>
    simp only [TaskManager.edit, TaskManager.modifyTaskByName]
    cases m.m_taskList.findIdx? fun t => (m.objects t).name_ = name with
    | none => exact ⟨rfl, rfl⟩
    | some iter =>
      cases task with
      | none => exact ⟨rfl, rfl⟩
      | some task => exact ⟨rfl, rfl⟩

/-- No call reads the stop flag that an earlier one left. -/
theorem forget_call {r : TaskSession P σ} (h : Idle r) (execute : P → σ → TaskBody σ)
    (c : TaskCall P) : (r.forget.call execute c).forget = (r.call execute c).forget := by
  cases c with
  | addTask task canExecute =>
    cases task with
    | none => rfl
    | some task => rfl
  | edit e =>
    obtain ⟨herror, hmanager⟩ := forget_edit r.manager e false
    simp only [TaskSession.call, forget, ← herror, ← hmanager]
  | deleteTask taskIndex =>
    by_cases hrange : taskIndex < 0 ∨ (r.manager.m_taskList.length : ℤ) ≤ taskIndex
    · simp only [TaskSession.call, TaskManager.deleteTask, forget, hrange, ↓reduceIte]
    · simp only [TaskSession.call, TaskManager.deleteTask, forget, hrange, ↓reduceIte]
  | deleteTaskByName name =>
    have hnamed : r.forget.manager.named name = r.manager.named name := rfl
    simp only [TaskSession.call, TaskManager.deleteTaskByName, hnamed]
    simp only [forget]
    cases r.manager.m_taskList.findIdx? (r.manager.named name) with
    | none => rfl
    | some actualIndex => rfl
  | executeAllTasks =>
    -- it clears the flag before it reads it
    rfl
  | executeTaskByName name =>
    obtain ⟨error, state, executions, stopFlag, stopFlag', hrun, hforget⟩ :=
      executeTaskByName_of_idle execute r.state name h.m_CurrentTask false
    simp only [TaskSession.call, forget, hrun, hforget]
  | stopTask =>
    have hidle : r.forget.manager.m_CurrentTask = none := h.m_CurrentTask
    simp only [TaskSession.call, stopTask_of_idle h.m_CurrentTask, stopTask_of_idle hidle]
    rfl
  | queryTaskByName name => rfl

/-- Sessions that differ in their stop flags only go on alike. -/
theorem forget_calls {r r' : TaskSession P σ} (h : Idle r) (h' : Idle r')
    (hsame : r.forget = r'.forget) (execute : P → σ → TaskBody σ) (l : List (TaskCall P)) :
    (r.calls execute l).forget =
      (r'.calls execute (l.filter fun c => !c.isStopTask)).forget := by
  induction l generalizing r r' with
  | nil => exact hsame
  | cons c l ih =>
    have hnext : (r.call execute c).forget = (r'.call execute c).forget := by
      rw [← forget_call h, hsame, forget_call h']
    cases hc : c.isStopTask with
    | false =>
      have hfilter : (c :: l).filter (fun c => !c.isStopTask) =
          c :: l.filter fun c => !c.isStopTask := by
        simp only [List.filter_cons, hc, Bool.not_false, ↓reduceIte]
      rw [hfilter]
      exact ih (h.call execute c) (h'.call execute c) hnext
    | true =>
      have hfilter : (c :: l).filter (fun c => !c.isStopTask) =
          l.filter fun c => !c.isStopTask := by
        simp only [List.filter_cons, hc, Bool.not_true, Bool.false_eq_true, ↓reduceIte]
      rw [hfilter]
      -- the run without the stop stays where it is, and so does the other but for its flag
      have hstop : (r.call execute c).forget = r.forget := by
        cases c with
        | stopTask =>
          simp only [TaskSession.call, stopTask_of_idle h.m_CurrentTask]
          rfl
        | _ => cases hc
      exact ih (h.call execute c) h' (hstop.trans hsame)

theorem idle_calls {r : TaskSession P σ} (h : Idle r) (execute : P → σ → TaskBody σ)
    (l : List (TaskCall P)) : Idle (r.calls execute l) := by
  induction l generalizing r with
  | nil => exact h
  | cons c l ih => exact ih (h.call execute c)

/-- In every run of calls a `stopTask` between them has no effect: without these the run ends in the
same list, tasks, count and executions. There is then no current task, the `skipList` is empty, and
the count is that of the tasks `executeAllTasks` executed without an exception. -/
theorem calls_new_spec (execute : P → σ → TaskBody σ) (objects : P → BasicTask σ) (s : σ)
    (l : List (TaskCall P)) :
    Idle ((new objects s).calls execute l) ∧
      ((new objects s).calls execute l).forget =
        ((new objects s).calls execute (l.filter fun c => !c.isStopTask)).forget := by
  have hnew := idle_new objects s
  exact ⟨idle_calls hnew execute l, forget_calls hnew hnew rfl execute l⟩

end TaskSession

end OpenAPT
