import OpenAPT.DownloadManager
import OpenAPT.Lib.EventMachine

/-! Which task `get_next_task` chooses after any sequence of the calls that change the list. -/
namespace OpenAPT

open EventMachine

/-- `operator<` on tasks. -/
def DownloadTask.lt (lhs rhs : DownloadTask) : Bool := lhs.priority < rhs.priority

/-- `top()` of a `std::priority_queue` of tasks: one that is not below another. -/
def priorityTop : List DownloadTask → Option DownloadTask
  | [] => none
  | task :: rest =>
    match priorityTop rest with
    | none => some task
    | some best => if task.lt best then some best else some task

/-- The manager with its queue. -/
structure PriorityManager extends DownloadManager where
  task_queue_ : List DownloadTask

/-- A call that changes the list. -/
inductive PriorityEvent
  | add_task (url filepath : Bytes) (priority : Int32)
  | pause_task (index : ℕ)
  | resume_task (index : ℕ)
  | remove_task (index : ℕ)

namespace DownloadManager

/-- `pause_task`; an index that is out of bounds is reported. -/
def pause_task (d : DownloadManager) (index : ℕ) : DownloadManager :=
  match d.tasks_[index]? with
  | some task => { d with tasks_ := d.tasks_.set index { task with paused := true } }
  | none => d

def resume_task (d : DownloadManager) (index : ℕ) : DownloadManager :=
  match d.tasks_[index]? with
  | some task => { d with tasks_ := d.tasks_.set index { task with paused := false } }
  | none => d

end DownloadManager

namespace PriorityManager

/-- The constructor on the content of the task file. -/
def init (task_file : Bytes) : PriorityManager := ⟨DownloadManager.opened task_file, []⟩

/-- None of the calls touches the queue. -/
def step (s : PriorityManager) : PriorityEvent → Option PriorityManager
  | .add_task url filepath priority =>
    some { s with toDownloadManager := s.toDownloadManager.add_task url filepath priority }
  | .pause_task index => some { s with toDownloadManager := s.toDownloadManager.pause_task index }
  | .resume_task index =>
    some { s with toDownloadManager := s.toDownloadManager.resume_task index }
  | .remove_task index =>
    some { s with toDownloadManager := (s.toDownloadManager.remove_task index).1 }

/-- `!completed && !paused`. -/
def isPending (task : DownloadTask) : Bool := !task.completed && !task.paused

def get_next_task_index (s : PriorityManager) : Option ℕ := s.tasks_.findIdx? isPending

/-- What `get_next_task` returns, if it returns: with an empty queue `get_next_task_index` locks the
mutex that the caller holds, and `relocks` says whether that goes through, which it does not for a
`std::mutex`. -/
def get_next_task (relocks : Bool) (s : PriorityManager) : Option (Option DownloadTask) :=
  match priorityTop s.task_queue_ with
  | some task => some (some task)
  | none => if relocks then some (s.get_next_task_index.bind fun i => s.tasks_[i]?) else none

/-- `get_next_task` returns a pending task of the highest priority, and nothing only if no task is
pending. -/
def RespectsPriority (relocks : Bool) (s : PriorityManager) : Prop :=
  ∃ answer, s.get_next_task relocks = some answer ∧
    (∀ task, answer = some task → task ∈ s.tasks_ ∧ isPending task = true ∧
      ∀ other ∈ s.tasks_, isPending other = true → other.priority ≤ task.priority) ∧
    (answer = none → ∀ task ∈ s.tasks_, isPending task = false)

/-- No pending task has a higher priority than the first one in the list. -/
def FirstIsHighest (tasks : List DownloadTask) : Prop :=
  ∀ first ∈ tasks.find? isPending,
    ∀ other ∈ tasks, isPending other = true → other.priority ≤ first.priority

instance (tasks : List DownloadTask) : Decidable (FirstIsHighest tasks) :=
  inferInstanceAs (Decidable (∀ first ∈ tasks.find? isPending,
    ∀ other ∈ tasks, isPending other = true → other.priority ≤ first.priority))

theorem step_task_queue {s t : PriorityManager} {e : PriorityEvent} (h : step s e = some t) :
    t.task_queue_ = s.task_queue_ := by
  cases e <;>
    · obtain rfl := Option.some.inj h
      rfl

/-- Nothing is ever pushed to the queue. -/
theorem task_queue_eq_nil {task_file : Bytes} {s : PriorityManager}
    (h : Reachable step (init task_file) s) : s.task_queue_ = [] := by
  apply reachable_invariant (I := fun s => s.task_queue_ = []) rfl _ h
  intro s e t hs ht
  rw [step_task_queue ht, hs]

/-- With an empty queue the answer is the first pending task. -/
theorem get_next_task_of_nil {relocks : Bool} {s : PriorityManager} (hqueue : s.task_queue_ = []) :
    s.get_next_task relocks =
      if relocks then some (s.tasks_.find? isPending) else none := by
  rw [get_next_task, hqueue, get_next_task_index, List.find?_eq_bind_findIdx?_getElem?]
  rfl

/-- Priorities are respected exactly when locking the mutex twice goes through and the first pending
task is one of the highest priority. -/
theorem respectsPriority_iff (relocks : Bool) {task_file : Bytes} {s : PriorityManager}
    (h : Reachable step (init task_file) s) :
    RespectsPriority relocks s ↔ relocks = true ∧ FirstIsHighest s.tasks_ := by
  rw [RespectsPriority, get_next_task_of_nil (task_queue_eq_nil h)]
  cases relocks with
  | false =>
    apply iff_of_false
    · rintro ⟨answer, hanswer, -⟩
      cases hanswer
    · rintro ⟨hfalse, -⟩
      cases hfalse
  | true =>
    simp only [↓reduceIte, true_and]
    constructor
    · rintro ⟨answer, hanswer, hhighest, -⟩ first hfirst
      obtain rfl := Option.some.inj hanswer
      exact (hhighest first hfirst).2.2
    · intro hfirst
      refine ⟨s.tasks_.find? isPending, rfl, fun task htask => ?_, fun hnone task hmem => ?_⟩
      · exact ⟨List.mem_of_find?_eq_some htask, List.find?_some htask, hfirst task htask⟩
      · exact Bool.not_eq_true _ |>.mp (List.find?_eq_none.mp hnone task hmem)

theorem init_nil : init [] = ⟨⟨[], []⟩, []⟩ := by
  have hread : readTasks [] = [] := by
    rw [readTasks]
    exact dif_pos rfl
  rw [init, DownloadManager.opened, hread]

/-- The task of the higher priority was added first. -/
theorem respectsPriority_descending :
    ∃ s, run step (init []) [.add_task (bytes "a") (bytes "f") 5,
        .add_task (bytes "b") (bytes "g") 0] = some s ∧ RespectsPriority true s := by
  obtain ⟨s, hrun, htasks⟩ : ∃ s, run step (init []) [.add_task (bytes "a") (bytes "f") 5,
      .add_task (bytes "b") (bytes "g") 0] = some s ∧ FirstIsHighest s.tasks_ := by
    rw [init_nil]
    exact ⟨_, rfl, by decide⟩
  exact ⟨s, hrun, (respectsPriority_iff true ⟨_, hrun⟩).mpr ⟨rfl, htasks⟩⟩

/-- A task with priority 0, and then one with priority 5: the first one is chosen, if any is. -/
theorem first_added_is_next :
    ∃ s, run step (init []) [.add_task (bytes "a") (bytes "f") 0,
        .add_task (bytes "b") (bytes "g") 5] = some s ∧
      s.get_next_task true = some (some (.pending (bytes "a") (bytes "f") 0)) ∧
      s.get_next_task false = none ∧ ∀ relocks, ¬ RespectsPriority relocks s := by
  rw [init_nil]
  refine ⟨_, rfl, rfl, rfl, fun relocks => ?_⟩
  rintro ⟨answer, hanswer, hhighest, -⟩
  cases relocks with
  | false => cases hanswer
  | true =>
    obtain rfl := Option.some.inj hanswer
    obtain ⟨-, -, hhighest⟩ := hhighest _ rfl
    have hlow := hhighest (.pending (bytes "b") (bytes "g") 5)
      (List.mem_cons_of_mem _ List.mem_cons_self) rfl
    revert hlow
    decide

end PriorityManager

end OpenAPT
