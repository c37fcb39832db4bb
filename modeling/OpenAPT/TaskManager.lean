import Mathlib.Data.List.Infix
import OpenAPT.TaskRunner

/-! The task list of the task manager: its editors, and the loop that executes it. The tasks are
shared pointers, so an editor may be given a task that is in the list. -/
namespace OpenAPT

variable {P σ : Type}

/-- `Stop`: how it ends, and the task and the rest of the program afterwards. -/
def BasicTask.Stop (t : BasicTask σ) (s : σ) : Except StdException Unit × BasicTask σ × σ :=
  match t.stop_fn_ with
  | none => (.ok (), { t with stop_flag_ := true }, s)
  | some stop_fn_ =>
    let call := stop_fn_ () true s
    (call.result, { t with stop_flag_ := call.writes.getLastD true }, call.state)

theorem BasicTask.can_execute_Stop (t : BasicTask σ) (s : σ) :
    (t.Stop s).2.1.can_execute_ = t.can_execute_ := by
  unfold BasicTask.Stop
  split
  · rfl
  · rfl

/-- The manager, and the task objects its pointers share with the rest of the program. -/
structure TaskManager (P σ : Type) where
  objects : P → BasicTask σ
  m_taskList : List P
  m_completedTaskCount : ℕ
  m_StopFlag : Bool
  m_CurrentTask : Option P

/-- A call of one of the editors. A `shared_ptr` that is empty is `none`. -/
inductive TaskEdit (P : Type)
  | insertTask (taskIndex : ℤ) (task : Option P) (canExecute : Bool)
  | modifyTask (taskIndex : ℤ) (task : Option P) (canExecute : Bool)
  | modifyTaskByName (name : Bytes) (task : Option P) (canExecute : Bool)

/-- What a task does while it runs, as far as the manager sees it: it ends, or it calls `stopTask`
and goes on with how that call ended. What else it changes is in the state. -/
inductive TaskBody (σ : Type)
  | finish (result : Except StdException Unit) (state : σ)
  | stopTask (state : σ) (resume : Except StdException Unit → σ → TaskBody σ)

/-- A task that was executed: how often `stopTask` was called meanwhile, and how it ended. -/
structure Execution (P : Type) where
  task : P
  stopTaskCalls : ℕ
  result : Except StdException Unit

/-- The manager when a running task has ended. -/
structure Ran (P σ : Type) where
  stopTaskCalls : ℕ
  result : Except StdException Unit
  manager : TaskManager P σ
  state : σ

/-- The loop of `executeAllTasks` between two turns, with what has been executed so far. -/
structure ExecuteRun (P σ : Type) where
  manager : TaskManager P σ
  state : σ
  executions : List (Execution P)

namespace TaskManager

variable [DecidableEq P]

def setCanExecute (m : TaskManager P σ) (task : P) (canExecute : Bool) : TaskManager P σ :=
  let flagged := { m.objects task with can_execute_ := canExecute }
  { m with objects := Function.update m.objects task flagged }

/-- `insertTask`, with the error it logs where it rejects the request. -/
def insertTask (m : TaskManager P σ) (taskIndex : ℤ) (task : Option P) (canExecute : Bool) :
    Option Bytes × TaskManager P σ :=
  match task with
  | none => (some (bytes "Cannot insert empty task!"), m)
  | some task =>
    let m := m.setCanExecute task canExecute
    if taskIndex < 0 ∨ (m.m_taskList.length : ℤ) < taskIndex then
      (some (bytes "Insert position out of range!"), m)
    else (none, { m with m_taskList := m.m_taskList.insertIdx taskIndex.toNat task })

def modifyTask (m : TaskManager P σ) (taskIndex : ℤ) (task : Option P) (canExecute : Bool) :
    Option Bytes × TaskManager P σ :=
  match task with
  | none => (some (bytes "Cannot modify with empty task!"), m)
  | some task =>
    let m := m.setCanExecute task canExecute
    if taskIndex < 0 ∨ (m.m_taskList.length : ℤ) ≤ taskIndex then
      (some (bytes "Task index out of range!"), m)
    else (none, { m with m_taskList := m.m_taskList.set taskIndex.toNat task })

def modifyTaskByName (m : TaskManager P σ) (name : Bytes) (task : Option P) (canExecute : Bool) :
    Option Bytes × TaskManager P σ :=
  match m.m_taskList.findIdx? fun t => (m.objects t).name_ = name with
  | none => (some (bytes "Task name not found!"), m)
  | some iter =>
    match task with
    | none => (some (bytes "Cannot modify with empty task!"), m)
    | some task =>
      let m := m.setCanExecute task canExecute
      (none, { m with m_taskList := m.m_taskList.set iter task })

def edit (m : TaskManager P σ) : TaskEdit P → Option Bytes × TaskManager P σ
  | .insertTask taskIndex task canExecute => m.insertTask taskIndex task canExecute
  | .modifyTask taskIndex task canExecute => m.modifyTask taskIndex task canExecute
  | .modifyTaskByName name task canExecute => m.modifyTaskByName name task canExecute

/-- Where the edit is rejected, the list and the flags of all tasks are what they were. -/
def RejectedUnchanged (m : TaskManager P σ) (e : TaskEdit P) : Prop :=
  (m.edit e).1 ≠ none →
    (m.edit e).2.m_taskList = m.m_taskList ∧
      ∀ p, ((m.edit e).2.objects p).can_execute_ = (m.objects p).can_execute_

/-- The edit is one by index, with a task but an index that is out of range, and asks for a flag
that the task does not have. -/
def FlagsOutOfRange (m : TaskManager P σ) : TaskEdit P → Prop
  | .insertTask taskIndex (some task) canExecute =>
    (taskIndex < 0 ∨ (m.m_taskList.length : ℤ) < taskIndex) ∧
      (m.objects task).can_execute_ ≠ canExecute
  | .modifyTask taskIndex (some task) canExecute =>
    (taskIndex < 0 ∨ (m.m_taskList.length : ℤ) ≤ taskIndex) ∧
      (m.objects task).can_execute_ ≠ canExecute
  | _ => False

/-- Setting a flag leaves all flags as they were exactly when it is the flag that the task has. -/
theorem can_execute_setCanExecute_iff (m : TaskManager P σ) (task : P) (canExecute : Bool) :
    (∀ p, ((m.setCanExecute task canExecute).objects p).can_execute_ = (m.objects p).can_execute_) ↔
      (m.objects task).can_execute_ = canExecute := by
  constructor
  · intro hsame
    have htask := hsame task
    simp only [setCanExecute, Function.update_self] at htask
    exact htask.symm
  · intro hflag p
    by_cases hp : p = task
    · subst hp
      simp only [setCanExecute, Function.update_self]
      exact hflag.symm
    · simp only [setCanExecute, Function.update_of_ne hp]

/-- The editors by index set the flag first. Such an edit is unchanged where it is rejected exactly
when its index is in range or the flag is the one that the task has. -/
theorem rejected_setCanExecute_iff (m : TaskManager P σ) (task : P) (canExecute : Bool)
    (outOfRange : Prop) [Decidable outOfRange] (text : Bytes) (m' : TaskManager P σ) :
    ((if outOfRange then (some text, m.setCanExecute task canExecute) else (none, m')).1 ≠ none →
      (if outOfRange then (some text, m.setCanExecute task canExecute)
        else (none, m')).2.m_taskList = m.m_taskList ∧
      ∀ p, ((if outOfRange then (some text, m.setCanExecute task canExecute)
        else (none, m')).2.objects p).can_execute_ = (m.objects p).can_execute_) ↔
      ¬ (outOfRange ∧ (m.objects task).can_execute_ ≠ canExecute) := by
  by_cases hrange : outOfRange
  · simp only [hrange, ↓reduceIte, true_and, not_not]
    rw [← can_execute_setCanExecute_iff]
    constructor
    · intro h
      exact (h (Option.some_ne_none text)).2
    · intro h _
      exact ⟨rfl, h⟩
  · simp only [hrange, ↓reduceIte, false_and, not_false_eq_true, iff_true]
    intro h
    exact absurd rfl h

/-- A rejected edit changes nothing except that `insertTask` and `modifyTask` set the flag of the
task before they look at the index. -/
theorem rejectedUnchanged_iff (m : TaskManager P σ) (e : TaskEdit P) :
    RejectedUnchanged m e ↔ ¬ FlagsOutOfRange m e := by
  cases e with
  | insertTask taskIndex task canExecute =>
    cases task with
    | none => exact iff_of_true (fun _ => ⟨rfl, fun _ => rfl⟩) id
    | some task => exact rejected_setCanExecute_iff m task canExecute _ _ _
  | modifyTask taskIndex task canExecute =>
    cases task with
    | none => exact iff_of_true (fun _ => ⟨rfl, fun _ => rfl⟩) id
    | some task => exact rejected_setCanExecute_iff m task canExecute _ _ _
  | modifyTaskByName name task canExecute =>
    refine iff_of_true ?_ id
    unfold RejectedUnchanged edit modifyTaskByName
    dsimp only
    split
    · exact fun _ => ⟨rfl, fun _ => rfl⟩
    · cases task with
      | none => exact fun _ => ⟨rfl, fun _ => rfl⟩
      | some task => exact fun h => absurd rfl h

/-- A manager whose list is one task that can be executed. -/
def oneTask : TaskManager Unit Unit where
  objects _ := BasicTask.make 0 none
  m_taskList := [()]
  m_completedTaskCount := 0
  m_StopFlag := false
  m_CurrentTask := none

/-- Inserting the task of the list again at the position -1 turns off its flag. -/
theorem not_rejectedUnchanged_oneTask :
    ¬ RejectedUnchanged oneTask (.insertTask (-1) (some ()) false) := by
  intro h
  have hflag : false = true := (h (Option.some_ne_none _)).2 ()
  exact Bool.false_ne_true hflag

/-! ### Executing the list -/

def stopTask (m : TaskManager P σ) (s : σ) : Except StdException Unit × TaskManager P σ × σ :=
  let m := { m with m_StopFlag := true }
  match m.m_CurrentTask with
  | none => (.ok (), m, s)
  | some task =>
    let stopped := (m.objects task).Stop s
    let m := { m with objects := Function.update m.objects task stopped.2.1 }
    match stopped.1 with
    | .ok () => (.ok (), { m with m_CurrentTask := none }, stopped.2.2)
    | .error e => (.error e, m, stopped.2.2)

/-- A running task, up to its end. -/
def runTask : TaskBody σ → TaskManager P σ → Ran P σ
  | .finish result s, m => ⟨0, result, m, s⟩
  | .stopTask s resume, m =>
    let stopped := m.stopTask s
    let ran := runTask (resume stopped.1 stopped.2.2) stopped.2.1
    { ran with stopTaskCalls := ran.stopTaskCalls + 1 }

/-- One turn of the loop of `executeAllTasks`. -/
def executeTask (execute : P → σ → TaskBody σ) (r : ExecuteRun P σ) (task : P) :
    ExecuteRun P σ :=
  if r.manager.m_StopFlag then r
  else if (r.manager.objects task).can_execute_ then
    let ran := runTask (execute task r.state) { r.manager with m_CurrentTask := some task }
    let executions := r.executions ++ [⟨task, ran.stopTaskCalls, ran.result⟩]
    match ran.result with
    | .ok () =>
      ⟨{ ran.manager with
          m_completedTaskCount := ran.manager.m_completedTaskCount + 1
          m_CurrentTask := none }, ran.state, executions⟩
    | .error _ => ⟨{ ran.manager with m_CurrentTask := none }, ran.state, executions⟩
  else r

/-- `executeAllTasks`, where `execute` is the virtual call of a task. -/
def executeAllTasks (execute : P → σ → TaskBody σ) (m : TaskManager P σ) (s : σ) :
    ExecuteRun P σ :=
  m.m_taskList.foldl (executeTask execute)
    ⟨{ m with m_CurrentTask := none, m_StopFlag := false }, s, []⟩

/-- The same list, flags and count: what calls of `stopTask` leave alone. -/
structure SameTasks (m m' : TaskManager P σ) : Prop where
  m_taskList : m'.m_taskList = m.m_taskList
  can_execute_ : ∀ p, (m'.objects p).can_execute_ = (m.objects p).can_execute_
  m_completedTaskCount : m'.m_completedTaskCount = m.m_completedTaskCount

omit [DecidableEq P] in
theorem SameTasks.trans {m₁ m₂ m₃ : TaskManager P σ} (h₁ : SameTasks m₁ m₂)
    (h₂ : SameTasks m₂ m₃) : SameTasks m₁ m₃ where
  m_taskList := h₂.m_taskList.trans h₁.m_taskList
  can_execute_ p := (h₂.can_execute_ p).trans (h₁.can_execute_ p)
  m_completedTaskCount := h₂.m_completedTaskCount.trans h₁.m_completedTaskCount

/-- Whether `Stop` returns or throws, `stopTask` has set the stop flag. -/
theorem stopTask_spec (m : TaskManager P σ) (s : σ) :
    SameTasks m (m.stopTask s).2.1 ∧ (m.stopTask s).2.1.m_StopFlag = true := by
  unfold stopTask
  dsimp only
  cases m.m_CurrentTask with
  | none => exact ⟨⟨rfl, fun _ => rfl, rfl⟩, rfl⟩
  | some task =>
    have hflags (p : P) : (Function.update m.objects task ((m.objects task).Stop s).2.1
        p).can_execute_ = (m.objects p).can_execute_ := by
      by_cases hp : p = task
      · subst hp
        rw [Function.update_self, BasicTask.can_execute_Stop]
      · rw [Function.update_of_ne hp]
    dsimp only
    cases ((m.objects task).Stop s).1 with
    | ok u => exact ⟨⟨rfl, hflags, rfl⟩, rfl⟩
    | error e => exact ⟨⟨rfl, hflags, rfl⟩, rfl⟩

/-- While a task runs the stop flag is set exactly by its calls of `stopTask`. -/
theorem runTask_spec (body : TaskBody σ) (m : TaskManager P σ) :
    SameTasks m (runTask body m).manager ∧
      ((runTask body m).manager.m_StopFlag = true ↔
        m.m_StopFlag = true ∨ 0 < (runTask body m).stopTaskCalls) := by
  induction body generalizing m with
  | finish result s =>
    refine ⟨⟨rfl, fun _ => rfl, rfl⟩, ?_⟩
    have hcalls : ¬ 0 < (runTask (.finish result s) m).stopTaskCalls := Nat.lt_irrefl 0
    exact (or_iff_left hcalls).symm
  | stopTask s resume ih =>
    have hstop := stopTask_spec m s
    have hrest := ih (m.stopTask s).1 (m.stopTask s).2.2 (m.stopTask s).2.1
    refine ⟨hstop.1.trans hrest.1, ?_⟩
    have hset : (runTask (.stopTask s resume) m).manager.m_StopFlag = true :=
      hrest.2.mpr (Or.inl hstop.2)
    have hcalls : 0 < (runTask (.stopTask s resume) m).stopTaskCalls := Nat.succ_pos _
    exact iff_of_true hset (Or.inr hcalls)

/-- Tasks were executed in the order of `executable`, each once, up to and including the first one
during which `stopTask` was called. -/
structure ExecutedUpToStop (executable : List P) (executions : List (Execution P)) : Prop where
  in_order : executions.map Execution.task <+: executable
  no_stop_before : ∀ e ∈ executions.dropLast, e.stopTaskCalls = 0
  all_or_stop : executions.map Execution.task = executable ∨
    ∃ e, executions.getLast? = some e ∧ 0 < e.stopTaskCalls

/-- The state of the loop after the tasks of `visited`: without a stop, all of them that can be
executed were; after a stop, the last one executed asked for it. -/
structure Progress (m : TaskManager P σ) (visited : List P) (r : ExecuteRun P σ) : Prop where
  can_execute_ : ∀ p, (r.manager.objects p).can_execute_ = (m.objects p).can_execute_
  executed : ExecutedUpToStop (visited.filter fun p => (m.objects p).can_execute_) r.executions
  running : r.manager.m_StopFlag = false →
    r.executions.map Execution.task = (visited.filter fun p => (m.objects p).can_execute_) ∧
      ∀ e ∈ r.executions, e.stopTaskCalls = 0
  stopped : r.manager.m_StopFlag = true →
    ∃ e, r.executions.getLast? = some e ∧ 0 < e.stopTaskCalls
  m_completedTaskCount : r.manager.m_completedTaskCount =
    m.m_completedTaskCount + r.executions.countP fun e => e.result.isOk
  m_CurrentTask : r.manager.m_CurrentTask = none

omit [DecidableEq P] in
/-- A turn after a stop skips the task, as does one with a task that is not executable. -/
theorem progress_skip {m : TaskManager P σ} {visited : List P} {r : ExecuteRun P σ} {task : P}
    (h : Progress m visited r)
    (hskip : r.manager.m_StopFlag = true ∨ (m.objects task).can_execute_ = false) :
    Progress m (visited ++ [task]) r := by
  let executable (l : List P) := l.filter fun p => (m.objects p).can_execute_
  have hfilter : executable (visited ++ [task]) = executable visited ++ executable [task] :=
    List.filter_append _ _
  have hprefix : executable visited <+: executable (visited ++ [task]) := by
    rw [hfilter]
    exact List.prefix_append _ _
  have hsame (hrun : r.manager.m_StopFlag = false) :
      executable (visited ++ [task]) = executable visited := by
    have hflag : (m.objects task).can_execute_ = false := by
      rcases hskip with hstop | hflag
      · rw [hrun] at hstop
        cases hstop
      · exact hflag
    have hnone : executable [task] = [] := by
      simp only [executable, List.filter_cons, hflag, Bool.false_eq_true, ↓reduceIte,
        List.filter_nil]
    rw [hfilter, hnone, List.append_nil]
  refine ⟨h.can_execute_, ⟨h.executed.in_order.trans hprefix, h.executed.no_stop_before, ?_⟩, ?_,
    h.stopped, h.m_completedTaskCount, h.m_CurrentTask⟩
  · cases hflag : r.manager.m_StopFlag with
    | true => exact Or.inr (h.stopped hflag)
    | false => exact Or.inl ((h.running hflag).1.trans (hsame hflag).symm)
  · intro hrun
    exact ⟨(h.running hrun).1.trans (hsame hrun).symm, (h.running hrun).2⟩

omit [DecidableEq P] in
/-- The list of executions grows by a task that can be executed, if there was no stop before. -/
theorem executedUpToStop_append {executable : List P} {executions : List (Execution P)}
    (hall : executions.map Execution.task = executable)
    (hzero : ∀ e ∈ executions, e.stopTaskCalls = 0) (e : Execution P) :
    ExecutedUpToStop (executable ++ [e.task]) (executions ++ [e]) := by
  have hmap : (executions ++ [e]).map Execution.task = executable ++ [e.task] := by
    rw [List.map_append, hall, List.map_singleton]
  refine ⟨hmap ▸ List.prefix_rfl, ?_, Or.inl hmap⟩
  rw [List.dropLast_concat]
  exact hzero

omit [DecidableEq P] in
/-- A turn that executes its task. -/
theorem progress_execute {m : TaskManager P σ} {visited : List P} {r : ExecuteRun P σ} {task : P}
    {ran : Ran P σ} (h : Progress m visited r) (hrun : r.manager.m_StopFlag = false)
    (hflag : (m.objects task).can_execute_ = true)
    (hsame : SameTasks r.manager ran.manager)
    (hstop : ran.manager.m_StopFlag = true ↔ 0 < ran.stopTaskCalls) {count : ℕ}
    (hcount : count = ran.manager.m_completedTaskCount + if ran.result.isOk then 1 else 0) :
    Progress m (visited ++ [task])
      ⟨{ ran.manager with m_completedTaskCount := count, m_CurrentTask := none }, ran.state,
        r.executions ++ [⟨task, ran.stopTaskCalls, ran.result⟩]⟩ := by
  let e : Execution P := ⟨task, ran.stopTaskCalls, ran.result⟩
  obtain ⟨hall, hzero⟩ := h.running hrun
  have hfilter : (visited ++ [task]).filter (fun p => (m.objects p).can_execute_) =
      (visited.filter fun p => (m.objects p).can_execute_) ++ [task] := by
    simp only [List.filter_append, List.filter_cons, hflag, ↓reduceIte, List.filter_nil]
  have hexecuted := executedUpToStop_append hall hzero e
  have hlast : (r.executions ++ [e]).getLast? = some e := List.getLast?_concat
  refine ⟨fun p => (hsame.can_execute_ p).trans (h.can_execute_ p), ?_, ?_, ?_, ?_, rfl⟩
  · rw [hfilter]
    exact hexecuted
  · intro hnot
    have hcalls : ran.stopTaskCalls = 0 := by
      apply Nat.eq_zero_of_not_pos
      intro hpos
      exact Bool.false_ne_true (hnot.symm.trans (hstop.mpr hpos))
    refine ⟨?_, ?_⟩
    · rw [hfilter, List.map_append, hall, List.map_singleton]
    · intro e' he'
      rcases List.mem_append.mp he' with hold | hnew
      · exact hzero e' hold
      · rw [List.mem_singleton.mp hnew]
        exact hcalls
  · intro hset
    exact ⟨e, hlast, hstop.mp hset⟩
  · have hold := h.m_completedTaskCount
    have hkept := hsame.m_completedTaskCount
    rw [List.countP_append, List.countP_singleton]
    dsimp only
    omega

theorem progress_executeTask (execute : P → σ → TaskBody σ) {m : TaskManager P σ}
    {visited : List P} {r : ExecuteRun P σ} (h : Progress m visited r) (task : P) :
    Progress m (visited ++ [task]) (executeTask execute r task) := by
  unfold executeTask
  split_ifs with hstopped hflag
  · exact progress_skip h (Or.inl hstopped)
  · have hrun : r.manager.m_StopFlag = false := Bool.eq_false_iff.mpr hstopped
    obtain ⟨hsame, hstop⟩ := runTask_spec (execute task r.state)
      { r.manager with m_CurrentTask := some task }
    have hkept : SameTasks r.manager _ := ⟨hsame.m_taskList, hsame.can_execute_,
      hsame.m_completedTaskCount⟩
    have hcalls := hstop.trans (or_iff_right hstopped)
    rw [h.can_execute_] at hflag
    dsimp only
    split
    next hok =>
      apply progress_execute h hrun hflag hkept hcalls
      rw [hok]
      rfl
    next e herror =>
      apply progress_execute h hrun hflag hkept hcalls
      rw [herror]
      rfl
  · rw [h.can_execute_] at hflag
    exact progress_skip h (Or.inr (Bool.eq_false_iff.mpr hflag))

theorem progress_foldl (execute : P → σ → TaskBody σ) {m : TaskManager P σ} (tasks : List P)
    {visited : List P} {r : ExecuteRun P σ} (h : Progress m visited r) :
    Progress m (visited ++ tasks) (tasks.foldl (executeTask execute) r) := by
  induction tasks generalizing visited r with
  | nil => rwa [List.append_nil]
  | cons task tasks ih =>
    have hnext := ih (progress_executeTask execute h task)
    rwa [List.append_assoc, List.singleton_append] at hnext

omit [DecidableEq P] in
theorem progress_start (m : TaskManager P σ) (s : σ) :
    Progress m [] ⟨{ m with m_CurrentTask := none, m_StopFlag := false }, s, []⟩ where
  can_execute_ _ := rfl
  executed := ⟨List.nil_prefix, fun _ he => absurd he List.not_mem_nil, Or.inl rfl⟩
  running _ := ⟨rfl, fun _ he => absurd he List.not_mem_nil⟩
  stopped h := absurd h Bool.false_ne_true
  m_completedTaskCount := rfl
  m_CurrentTask := rfl

/-- The manager after a task has run: those that returned are counted. -/
def settled (ran : Ran P σ) : TaskManager P σ :=
  { ran.manager with
    m_completedTaskCount := ran.manager.m_completedTaskCount + if ran.result.isOk then 1 else 0
    m_CurrentTask := none }

/-- Each task ran as the current one, on the state that the one before it left, and ended as noted;
the manager and the state are those after the last one. -/
def RunsInTurn (execute : P → σ → TaskBody σ) :
    TaskManager P σ → σ → List (Execution P) → TaskManager P σ → σ → Prop
  | m, s, [], m', s' => m' = m ∧ s' = s
  | m, s, e :: executions, m', s' =>
    let ran := runTask (execute e.task s) { m with m_CurrentTask := some e.task }
    e.stopTaskCalls = ran.stopTaskCalls ∧ e.result = ran.result ∧
      RunsInTurn execute (settled ran) ran.state executions m' s'

/-- One more task runs after those that have run. -/
theorem RunsInTurn.concat {execute : P → σ → TaskBody σ} {m m' : TaskManager P σ} {s s' : σ}
    {executions : List (Execution P)} (h : RunsInTurn execute m s executions m' s') (task : P)
    {ran : Ran P σ} (hran : runTask (execute task s') { m' with m_CurrentTask := some task } = ran) :
    RunsInTurn execute m s (executions ++ [⟨task, ran.stopTaskCalls, ran.result⟩]) (settled ran)
      ran.state := by
  induction executions generalizing m s with
  | nil =>
    obtain ⟨rfl, rfl⟩ := h
    subst hran
    exact ⟨rfl, rfl, rfl, rfl⟩
  | cons e executions ih =>
    obtain ⟨hcalls, hresult, hrest⟩ := h
    exact ⟨hcalls, hresult, ih hrest⟩

theorem runsInTurn_executeTask {execute : P → σ → TaskBody σ} {m : TaskManager P σ} {s : σ}
    {r : ExecuteRun P σ} (h : RunsInTurn execute m s r.executions r.manager r.state) (task : P) :
    RunsInTurn execute m s (executeTask execute r task).executions
      (executeTask execute r task).manager (executeTask execute r task).state := by
  unfold executeTask
  split_ifs with hstopped hflag
  · exact h
  · have hnext := h.concat task rfl
    dsimp only
    split
    next hok =>
      rw [settled, hok] at hnext
      rwa [hok]
    next e herror =>
      rw [settled, herror] at hnext
      rwa [herror]
  · exact h

theorem runsInTurn_foldl {execute : P → σ → TaskBody σ} {m : TaskManager P σ} {s : σ}
    (tasks : List P) {r : ExecuteRun P σ}
    (h : RunsInTurn execute m s r.executions r.manager r.state) :
    RunsInTurn execute m s (tasks.foldl (executeTask execute) r).executions
      (tasks.foldl (executeTask execute) r).manager (tasks.foldl (executeTask execute) r).state := by
  induction tasks generalizing r with
  | nil => exact h
  | cons task tasks ih => exact ih (runsInTurn_executeTask h task)

/-- `executeAllTasks` executes the tasks whose flag is set in list order, each once, up to and
including the first during which `stopTask` was called, each on what the one before it left; the
count grows by those that returned, and there is no current task afterwards. -/
theorem executeAllTasks_spec (execute : P → σ → TaskBody σ) (m : TaskManager P σ) (s : σ) :
    ExecutedUpToStop (m.m_taskList.filter fun p => (m.objects p).can_execute_)
        (executeAllTasks execute m s).executions ∧
      RunsInTurn execute { m with m_CurrentTask := none, m_StopFlag := false } s
        (executeAllTasks execute m s).executions (executeAllTasks execute m s).manager
        (executeAllTasks execute m s).state ∧
      (executeAllTasks execute m s).manager.m_completedTaskCount = m.m_completedTaskCount +
        (executeAllTasks execute m s).executions.countP (fun e => e.result.isOk) ∧
      (executeAllTasks execute m s).manager.m_CurrentTask = none := by
  have h := progress_foldl execute m.m_taskList (progress_start m s)
  exact ⟨h.executed, runsInTurn_foldl m.m_taskList ⟨rfl, rfl⟩, h.m_completedTaskCount,
    h.m_CurrentTask⟩

end TaskManager

end OpenAPT
