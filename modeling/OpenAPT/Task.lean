import OpenAPT.Json
import OpenAPT.Lib.EventMachine
import OpenAPT.Lib.PastTime

/-! The tasks of `task.hpp`. The functions a task holds are the user's: they read their argument,
the stop flag and the rest of the program, may write the stop flag any number of times, and return
or throw. -/
namespace OpenAPT

open EventMachine PastTime

/-- What a call of a user function does: the values it writes to the stop flag of the task in order,
what it returns or throws, and the state it leaves the rest of the program in. -/
structure Call (σ α : Type*) where
  writes : List Bool
  result : Except StdException α
  state : σ

/-- A `std::function` with argument `ι` and result `α`; an empty one is `none`. -/
abbrev StdFunction (σ ι α : Type*) := Option (ι → Bool → σ → Call σ α)

/-- The `std::bad_function_call` of an empty function. -/
def badFunctionCall : StdException := ⟨bytes "bad_function_call"⟩

structure BasicTask (σ : Type*) where
  done_ : Bool
  id_ : Int32
  name_ : Bytes
  description_ : Bytes
  can_stop_ : Bool
  stop_fn_ : StdFunction σ Unit Unit
  stop_flag_ : Bool
  can_execute_ : Bool

/-- The constructor. It does not initialise `id_`, and what it is told about `can_stop` is not
used. -/
def BasicTask.make {σ : Type*} (id_ : Int32) (stop_fn : StdFunction σ Unit Unit) : BasicTask σ where
  done_ := false
  id_ := id_
  name_ := []
  description_ := []
  can_stop_ := stop_fn.isSome
  stop_fn_ := stop_fn
  stop_flag_ := false
  can_execute_ := true

/-- What `SimpleTask`, `ConditionalTask` and `LoopTask` add to `BasicTask`. -/
inductive TaskClass (σ : Type*)
  | SimpleTask (function_ : StdFunction σ Json Json) (params_ returns_ : Json)
  | ConditionalTask (condition_fn_ : StdFunction σ Json Bool) (params_ : Json)
      (task_fn_ : StdFunction σ Json Unit)
  | LoopTask (item_fn_ : StdFunction σ Json Unit) (params_ : Json)

structure Task (σ : Type*) extends BasicTask σ where
  self : TaskClass σ

namespace BasicTask

variable {σ : Type*}

/-- The members of the object, in key order. -/
def ToJson (t : BasicTask σ) : List (Bytes × Json) :=
  [(bytes "can_stop", .boolean t.can_stop_),
    (bytes "description", .string t.description_),
    (bytes "id", .numberInteger t.id_.toInt64),
    (bytes "name", .string t.name_),
    (bytes "type", .string (bytes "basic"))]

end BasicTask

/-- `j["type"] = type; j["params"] = params` on the members of an object. -/
def withTypeAndParams (type : Bytes) (params : Json) (members : List (Bytes × Json)) : Json :=
  .object (KeyedList.insert (bytes "params") params
    (KeyedList.insert (bytes "type") (.string type) members))

/-- `{{"status", "done"}}`. -/
def statusDone : Json := .object [(bytes "status", .string (bytes "done"))]

/-- What a range-based `for` over a value goes through. -/
def Json.elements : Json → List Json
  | .null => []
  | .array a => a
  | .object o => o.map Prod.snd
  | j => [j]

/-- The user functions of a task by the members that hold them. -/
inductive UserFunction
  | function_
  | condition_fn_
  | task_fn_
  | item_fn_
  | stop_fn_
  deriving DecidableEq

/-- What is recorded of a run: the start of an `Execute`, a write to the stop flag, and the call
of a user function. -/
inductive TaskAction
  | Execute
  | stop_flag (flag : Bool)
  | invoke (f : UserFunction)
  deriving DecidableEq

/-- A task, the rest of the program, and what has happened so far. -/
structure TaskRun (σ : Type*) where
  task : Task σ
  state : σ
  history : List TaskAction

inductive TaskEvent
  | Execute
  | Stop
  | set_stop_flag (flag : Bool)
  deriving DecidableEq

namespace Task

variable {σ : Type*}

def ToJson (t : Task σ) : Json :=
  match t.self with
  | .SimpleTask _ params_ _ => withTypeAndParams (bytes "simple") params_ t.toBasicTask.ToJson
  | .ConditionalTask _ params_ _ =>
    withTypeAndParams (bytes "conditional") params_ t.toBasicTask.ToJson
  | .LoopTask _ params_ => withTypeAndParams (bytes "loop") params_ t.toBasicTask.ToJson

end Task

namespace TaskRun

variable {σ ι α : Type*}

def record (r : TaskRun σ) (a : TaskAction) : TaskRun σ := { r with history := r.history ++ [a] }

def set_stop_flag (r : TaskRun σ) (flag : Bool) : TaskRun σ :=
  { r with task := { r.task with stop_flag_ := flag } }.record (.stop_flag flag)

/-- The call of a member that holds a user function. -/
def invoke (name : UserFunction) (f : StdFunction σ ι α) (x : ι) (r : TaskRun σ) :
    Except StdException α × TaskRun σ :=
  match f with
  | none => (.error badFunctionCall, r)
  | some f =>
    let call := f x r.task.stop_flag_ r.state
    (call.result, { call.writes.foldl set_stop_flag (r.record (.invoke name)) with
      state := call.state })

/-- The end of each `Execute` that does not throw. -/
def done (r : TaskRun σ) : TaskRun σ := { r with task := { r.task with done_ := true } }

def withSelf (r : TaskRun σ) (self : TaskClass σ) : TaskRun σ :=
  { r with task := { r.task with self := self } }

/-- `SimpleTask::Execute`. -/
def SimpleTask_Execute (function_ : StdFunction σ Json Json) (params_ : Json) (r : TaskRun σ) :
    Except StdException Json × TaskRun σ :=
  if r.task.stop_flag_ then (.ok r.done.task.ToJson, r.done)
  else
    match invoke .function_ function_ params_ r with
    | (.error e, r) => (.error e, r)
    | (.ok returns, r) =>
      let r := (r.withSelf (.SimpleTask function_ params_ returns)).done
      (.ok r.task.ToJson, r)

/-- `ConditionalTask::Execute`. -/
def ConditionalTask_Execute (condition_fn_ : StdFunction σ Json Bool) (params_ : Json)
    (task_fn_ : StdFunction σ Json Unit) (r : TaskRun σ) : Except StdException Json × TaskRun σ :=
  match invoke .condition_fn_ condition_fn_ params_ r with
  | (.error e, r) => (.error e, r)
  | (.ok false, r) => (.ok statusDone, r.done)
  | (.ok true, r) =>
    match invoke .task_fn_ task_fn_ params_ r with
    | (.error e, r) => (.error e, r)
    | (.ok (), r) => (.ok statusDone, r.done)

/-- The loop of `LoopTask::Execute`. -/
def executeItems (item_fn_ : StdFunction σ Json Unit) :
    List Json → TaskRun σ → Except StdException Unit × TaskRun σ
  | [], r => (.ok (), r)
  | item :: items, r =>
    if r.task.stop_flag_ then (.ok (), r)
    else
      match invoke .item_fn_ item_fn_ (.object [(bytes "item", item)]) r with
      | (.error e, r) => (.error e, r)
      | (.ok (), r) => executeItems item_fn_ items r

/-- `LoopTask::Execute`. `params_["items"]` adds the member where it is missing. -/
def LoopTask_Execute (item_fn_ : StdFunction σ Json Unit) (params_ : Json) (r : TaskRun σ) :
    Except StdException Json × TaskRun σ :=
  match params_.index (bytes "items") with
  | .error e => (.error e, r)
  | .ok params_ =>
    let items := ((params_.find? (bytes "items")).getD .null).elements
    match executeItems item_fn_ items (r.withSelf (.LoopTask item_fn_ params_)) with
    | (.error e, r) => (.error e, r)
    | (.ok (), r) => (.ok statusDone, r.done)

/-- The virtual `Execute`. -/
def Execute (r : TaskRun σ) : Except StdException Json × TaskRun σ :=
  match r.task.self with
  | .SimpleTask function_ params_ _ => SimpleTask_Execute function_ params_ (r.record .Execute)
  | .ConditionalTask condition_fn_ params_ task_fn_ =>
    ConditionalTask_Execute condition_fn_ params_ task_fn_ (r.record .Execute)
  | .LoopTask item_fn_ params_ => LoopTask_Execute item_fn_ params_ (r.record .Execute)

def Stop (r : TaskRun σ) : Except StdException Unit × TaskRun σ :=
  if r.task.stop_fn_.isSome then
    invoke .stop_fn_ r.task.stop_fn_ () (r.set_stop_flag true)
  else (.ok (), r.set_stop_flag true)

/-- One call from outside; its caller catches what it throws. -/
def step (r : TaskRun σ) : TaskEvent → Option (TaskRun σ)
  | .Execute => some r.Execute.2
  | .Stop => some r.Stop.2
  | .set_stop_flag flag => some (r.set_stop_flag flag)

/-- A new task. -/
def init (self : TaskClass σ) (stop_fn : StdFunction σ Unit Unit) (id_ : Int32) (state : σ) :
    TaskRun σ :=
  ⟨⟨BasicTask.make id_ stop_fn, self⟩, state, []⟩

/-! ### The stop flag -/

/-- The flag was set, and has not been cleared since. -/
def FlagSet : List TaskAction → Prop :=
  Since (· ≠ .stop_flag false) fun _ a => a = .stop_flag true

/-- An `Execute` started after the flag was set, and the flag has not been cleared since then. -/
def Stopped : List TaskAction → Prop :=
  Since (· ≠ .stop_flag false) fun before a => a = .Execute ∧ FlagSet before

/-- Once the flag is set, no later `Execute` calls one of the user functions that count before the
flag is cleared. The stop function is not called by `Execute`. -/
def StopRespected (counts : UserFunction → Bool) : List TaskAction → Prop :=
  Always fun before a => ∀ f, a = .invoke f → f ≠ .stop_fn_ → counts f = true → ¬ Stopped before

/-- The history ends with the flag as the task has it. -/
def Faithful (r : TaskRun σ) : Prop := FlagSet r.history ↔ r.task.stop_flag_ = true

theorem flagSet_stop_flag {h : List TaskAction} {flag : Bool} :
    FlagSet (h ++ [.stop_flag flag]) ↔ flag = true := by
  rw [FlagSet, since_concat]
  cases flag <;> simp

theorem flagSet_of_ne {h : List TaskAction} {a : TaskAction} (ha : ∀ flag, a ≠ .stop_flag flag) :
    FlagSet (h ++ [a]) ↔ FlagSet h := by
  rw [FlagSet, since_concat]
  simp [ha]

theorem stopped_execute {h : List TaskAction} : Stopped (h ++ [.Execute]) ↔ FlagSet h := by
  rw [Stopped, since_concat]
  constructor
  · intro hstopped
    rcases hstopped with ⟨-, hset⟩ | ⟨-, hstopped⟩
    · exact hset
    · exact hstopped.imp fun before a ha => ⟨ha.2, by simp [ha.1]⟩
  · intro hset
    exact Or.inl ⟨rfl, hset⟩

theorem stopped_invoke {h : List TaskAction} {f : UserFunction} :
    Stopped (h ++ [.invoke f]) ↔ Stopped h := by
  rw [Stopped, since_concat]
  simp

theorem stopped_stop_flag {h : List TaskAction} {flag : Bool} :
    Stopped (h ++ [.stop_flag flag]) ↔ flag = true ∧ Stopped h := by
  rw [Stopped, since_concat]
  simp

theorem flagSet_of_stopped {h : List TaskAction} (hstopped : Stopped h) : FlagSet h :=
  hstopped.imp fun before a ha => ⟨ha.2, by simp [ha.1]⟩

theorem stopRespected_of_ne {counts : UserFunction → Bool} {h : List TaskAction} {a : TaskAction}
    (ha : ∀ f, a ≠ .invoke f) : StopRespected counts (h ++ [a]) ↔ StopRespected counts h := by
  rw [StopRespected, always_concat]
  simp [ha]

theorem stopRespected_invoke {counts : UserFunction → Bool} {h : List TaskAction}
    {f : UserFunction} : StopRespected counts (h ++ [.invoke f]) ↔
      StopRespected counts h ∧ (f ≠ .stop_fn_ → counts f = true → ¬ Stopped h) := by
  rw [StopRespected, always_concat]
  simp

/-! ### One call of a user function -/

variable {r : TaskRun σ} {counts : UserFunction → Bool}

theorem faithful_set_stop_flag (r : TaskRun σ) (flag : Bool) : Faithful (r.set_stop_flag flag) :=
  flagSet_stop_flag

theorem faithful_record {a : TaskAction} (hr : Faithful r) (ha : ∀ flag, a ≠ .stop_flag flag) :
    Faithful (r.record a) :=
  (flagSet_of_ne ha).trans hr

theorem faithful_foldl (writes : List Bool) (hr : Faithful r) :
    Faithful (writes.foldl set_stop_flag r) := by
  induction writes generalizing r with
  | nil => exact hr
  | cons flag writes ih => exact ih (faithful_set_stop_flag r flag)

theorem stopRespected_foldl (writes : List Bool) :
    StopRespected counts (writes.foldl set_stop_flag r).history ↔
      StopRespected counts r.history := by
  induction writes generalizing r with
  | nil => exact Iff.rfl
  | cons flag writes ih => exact ih.trans (stopRespected_of_ne fun _ => nofun)

theorem stopped_foldl (writes : List Bool) :
    Stopped (writes.foldl set_stop_flag r).history ↔ false ∉ writes ∧ Stopped r.history := by
  induction writes generalizing r with
  | nil => simp
  | cons flag writes ih =>
    rw [List.foldl_cons, ih]
    have hflag : Stopped (r.set_stop_flag flag).history ↔ flag = true ∧ Stopped r.history :=
      stopped_stop_flag
    rw [hflag, List.mem_cons, not_or, and_left_comm, ← and_assoc]
    cases flag <;> simp

/-- A call of a user function is one more event, and then there are its writes. -/
theorem faithful_invoke {name : UserFunction} {f : StdFunction σ ι α} {x : ι} (hr : Faithful r) :
    Faithful (invoke name f x r).2 := by
  cases f with
  | none => exact hr
  | some f => exact faithful_foldl _ (faithful_record hr fun _ => nofun)

theorem stopRespected_invoke_iff {name : UserFunction} {f : StdFunction σ ι α} {x : ι} :
    StopRespected counts (invoke name f x r).2.history ↔
      StopRespected counts r.history ∧
        (f ≠ none → name ≠ .stop_fn_ → counts name = true → ¬ Stopped r.history) := by
  cases f with
  | none => simp [invoke]
  | some f =>
    have hcall : StopRespected counts (r.record (.invoke name)).history ↔
        StopRespected counts r.history ∧
          (name ≠ .stop_fn_ → counts name = true → ¬ Stopped r.history) :=
      stopRespected_invoke
    calc StopRespected counts (invoke name (some f) x r).2.history
        ↔ StopRespected counts (r.record (.invoke name)).history := stopRespected_foldl _
      _ ↔ _ := hcall
      _ ↔ _ := by simp

theorem stopped_invoke_iff {name : UserFunction} {f : ι → Bool → σ → Call σ α} {x : ι} :
    Stopped (invoke name (some f) x r).2.history ↔
      false ∉ (f x r.task.stop_flag_ r.state).writes ∧ Stopped r.history := by
  have hcall : Stopped (r.record (.invoke name)).history ↔ Stopped r.history := stopped_invoke
  exact (stopped_foldl _).trans (and_congr_right fun _ => hcall)

/-- The rule is kept so far, and the history is the one of the flag. -/
structure Within (counts : UserFunction → Bool) (r : TaskRun σ) : Prop where
  faithful : Faithful r
  respected : StopRespected counts r.history

/-- A call while the flag is clear is within the rule. -/
theorem Within.invoke {name : UserFunction} {f : StdFunction σ ι α} {x : ι}
    (hr : Within counts r) (hclear : r.task.stop_flag_ = false) :
    Within counts (invoke name f x r).2 := by
  refine ⟨faithful_invoke hr.faithful, stopRespected_invoke_iff.mpr ⟨hr.respected, ?_⟩⟩
  intro _ _ _ hstopped
  have hset : r.task.stop_flag_ = true := hr.faithful.mp (flagSet_of_stopped hstopped)
  rw [hclear] at hset
  exact Bool.false_ne_true hset

theorem Within.record {a : TaskAction} (hr : Within counts r) (hflag : ∀ flag, a ≠ .stop_flag flag)
    (hinvoke : ∀ f, a ≠ .invoke f) : Within counts (r.record a) :=
  ⟨faithful_record hr.faithful hflag, (stopRespected_of_ne hinvoke).mpr hr.respected⟩

theorem Within.set_stop_flag (hr : Within counts r) (flag : Bool) :
    Within counts (r.set_stop_flag flag) := by
  refine ⟨faithful_set_stop_flag r flag, ?_⟩
  apply (stopRespected_of_ne _).mpr hr.respected
  intro f
  exact TaskAction.noConfusion

/-! ### `Execute` -/

theorem Within.simpleTask {function_ : StdFunction σ Json Json} {params_ : Json}
    (hr : Within counts r) : Within counts (SimpleTask_Execute function_ params_ r).2 := by
  unfold SimpleTask_Execute
  split
  next => exact ⟨hr.faithful, hr.respected⟩
  next hflag =>
    have hcall : Within counts (TaskRun.invoke .function_ function_ params_ r).2 :=
      hr.invoke (by simpa using hflag)
    split
    next e r' heq =>
      rw [heq] at hcall
      exact hcall
    next returns r' heq =>
      rw [heq] at hcall
      exact ⟨hcall.faithful, hcall.respected⟩

/-- Each turn of the loop looks at the flag before it calls the function. -/
theorem Within.executeItems {item_fn_ : StdFunction σ Json Unit} {items : List Json}
    (hr : Within counts r) : Within counts (executeItems item_fn_ items r).2 := by
  induction items generalizing r with
  | nil => exact hr
  | cons item items ih =>
    unfold TaskRun.executeItems
    split
    next => exact hr
    next hflag =>
      have hcall : Within counts
          (TaskRun.invoke .item_fn_ item_fn_ (.object [(bytes "item", item)]) r).2 :=
        hr.invoke (by simpa using hflag)
      split
      next e r' heq =>
        rw [heq] at hcall
        exact hcall
      next r' heq =>
        rw [heq] at hcall
        exact ih hcall

theorem Within.loopTask {item_fn_ : StdFunction σ Json Unit} {params_ : Json}
    (hr : Within counts r) : Within counts (LoopTask_Execute item_fn_ params_ r).2 := by
  unfold LoopTask_Execute
  split
  next => exact hr
  next params' hindex =>
    have hself : Within counts (r.withSelf (.LoopTask item_fn_ params')) :=
      ⟨hr.faithful, hr.respected⟩
    have hitems : Within counts (TaskRun.executeItems item_fn_
        ((params'.find? (bytes "items")).getD .null).elements
        (r.withSelf (.LoopTask item_fn_ params'))).2 := hself.executeItems
    dsimp only
    split
    next e r' heq =>
      rw [heq] at hitems
      exact hitems
    next r' heq =>
      rw [heq] at hitems
      exact ⟨hitems.faithful, hitems.respected⟩

/-- The condition clears the flag, or does not return true. -/
def Declines (condition : Call σ Bool) : Prop :=
  false ∈ condition.writes ∨ condition.result ≠ .ok true

/-- A conditional task does not look at the flag: when it is set, the rule rests on the functions
the user gave it. -/
def ConditionDeclines (counts : UserFunction → Bool) (r : TaskRun σ) : TaskEvent → Prop
  | .Execute =>
    match r.task.self with
    | .ConditionalTask condition_fn_ params_ task_fn_ => r.task.stop_flag_ = true →
      (counts .condition_fn_ = true → condition_fn_ = none) ∧
      (counts .task_fn_ = true → task_fn_ = none ∨
        ∀ f, condition_fn_ = some f → Declines (f params_ r.task.stop_flag_ r.state))
    | .SimpleTask _ _ _ | .LoopTask _ _ => True
  | .Stop | .set_stop_flag _ => True

theorem faithful_conditionalTask {condition_fn_ : StdFunction σ Json Bool} {params_ : Json}
    {task_fn_ : StdFunction σ Json Unit} (hr : Faithful r) :
    Faithful (ConditionalTask_Execute condition_fn_ params_ task_fn_ r).2 := by
  have hcondition : Faithful (invoke .condition_fn_ condition_fn_ params_ r).2 :=
    faithful_invoke hr
  unfold ConditionalTask_Execute
  split
  next e r' heq =>
    rw [heq] at hcondition
    exact hcondition
  next r' heq =>
    rw [heq] at hcondition
    exact hcondition
  next r' heq =>
    rw [heq] at hcondition
    have htask : Faithful (invoke .task_fn_ task_fn_ params_ r').2 := faithful_invoke hcondition
    split
    next e r'' heq' =>
      rw [heq'] at htask
      exact htask
    next r'' heq' =>
      rw [heq'] at htask
      exact htask

/-- What the condition returned decides whether the task function is called. -/
theorem conditionalTask_history {condition_fn_ : StdFunction σ Json Bool} {params_ : Json}
    {task_fn_ : StdFunction σ Json Unit} :
    (ConditionalTask_Execute condition_fn_ params_ task_fn_ r).2.history =
      if (invoke .condition_fn_ condition_fn_ params_ r).1 = .ok true then
        (invoke .task_fn_ task_fn_ params_ (invoke .condition_fn_ condition_fn_ params_ r).2).2.history
      else (invoke .condition_fn_ condition_fn_ params_ r).2.history := by
  unfold ConditionalTask_Execute
  split
  next e r' heq => simp only [heq, reduceCtorEq, ↓reduceIte]
  next r' heq => simp [heq, done]
  next r' heq =>
    simp only [heq, ↓reduceIte]
    split
    next e r'' heq' => simp only [heq']
    next r'' heq' => simp only [heq', done]

theorem conditionalTask_iff {condition_fn_ : StdFunction σ Json Bool} {params_ : Json}
    {task_fn_ : StdFunction σ Json Unit} (hr : StopRespected counts r.history)
    (hstopped : Stopped r.history ↔ r.task.stop_flag_ = true) :
    StopRespected counts (ConditionalTask_Execute condition_fn_ params_ task_fn_ r).2.history ↔
      (r.task.stop_flag_ = true →
        (counts .condition_fn_ = true → condition_fn_ = none) ∧
        (counts .task_fn_ = true → task_fn_ = none ∨
          ∀ f, condition_fn_ = some f → Declines (f params_ r.task.stop_flag_ r.state))) := by
  rw [conditionalTask_history]
  cases condition_fn_ with
  | none =>
    -- the empty function throws, and nothing is called
    simp [TaskRun.invoke, hr]
  | some f =>
    have hcondition : StopRespected counts (invoke .condition_fn_ (some f) params_ r).2.history ↔
        (counts .condition_fn_ = true → ¬ r.task.stop_flag_ = true) := by
      rw [stopRespected_invoke_iff, hstopped]
      simp [hr]
    have hstill : Stopped (invoke .condition_fn_ (some f) params_ r).2.history ↔
        false ∉ (f params_ r.task.stop_flag_ r.state).writes ∧ r.task.stop_flag_ = true := by
      rw [stopped_invoke_iff, hstopped]
    have hresult : (invoke .condition_fn_ (some f) params_ r).1 =
        (f params_ r.task.stop_flag_ r.state).result := rfl
    have hfunctions : (∀ g, some f = some g → Declines (g params_ r.task.stop_flag_ r.state)) ↔
        Declines (f params_ r.task.stop_flag_ r.state) := by simp
    rw [hresult, hfunctions]
    by_cases htrue : (f params_ r.task.stop_flag_ r.state).result = .ok true
    · rw [if_pos htrue, stopRespected_invoke_iff, hcondition, hstill, Declines]
      simp only [ne_eq, reduceCtorEq, not_false_eq_true, htrue, not_true_eq_false, or_false,
        forall_const]
      constructor
      · intro ⟨hcond, htask⟩ hstop
        refine ⟨fun hcounts => hcond hcounts hstop, fun hcounts => ?_⟩
        by_contra hnot
        rw [not_or] at hnot
        exact htask hnot.1 hcounts ⟨hnot.2, hstop⟩
      · intro h
        refine ⟨fun hcounts hstop => (h hstop).1 hcounts, ?_⟩
        intro hne hcounts ⟨hwrites, hstop⟩
        exact ((h hstop).2 hcounts).elim hne hwrites
    · rw [if_neg htrue, hcondition, Declines]
      simp only [htrue, ne_eq, not_false_eq_true, or_true, implies_true, and_true, reduceCtorEq]
      exact ⟨fun h hstop hcounts => h hcounts hstop, fun h hcounts hstop => h hstop hcounts⟩

/-- The functions of the task are called by `Execute` alone, and `stop_fn_` by `Stop` alone. -/
theorem Within.stop (hr : Within counts r) : Within counts r.Stop.2 := by
  have hset : Within counts (r.set_stop_flag true) := hr.set_stop_flag true
  unfold Stop
  split
  next =>
    refine ⟨faithful_invoke hset.faithful, stopRespected_invoke_iff.mpr ⟨hset.respected, ?_⟩⟩
    intro _ hname
    exact absurd rfl hname
  next => exact hset

/-! ### Whole runs -/

/-- One call keeps to the rule exactly when it meets the condition. -/
theorem step_respected_iff {e : TaskEvent} {r' : TaskRun σ} (hr : Within counts r)
    (h : step r e = some r') :
    StopRespected counts r'.history ↔ ConditionDeclines counts r e := by
  cases e with
  | Execute =>
    obtain rfl : r.Execute.2 = r' := Option.some.inj h
    have hstart : Within counts (r.record .Execute) := hr.record (fun _ => nofun) fun _ => nofun
    have hstopped : Stopped (r.record .Execute).history ↔ r.task.stop_flag_ = true :=
      stopped_execute.trans hr.faithful
    unfold Execute ConditionDeclines
    split
    next heq => simp only [heq, hstart.simpleTask.respected]
    next heq =>
      simp only [heq]
      exact conditionalTask_iff hstart.respected hstopped
    next heq => simp only [heq, hstart.loopTask.respected]
  | Stop =>
    obtain rfl : r.Stop.2 = r' := Option.some.inj h
    exact iff_of_true hr.stop.respected trivial
  | set_stop_flag flag =>
    obtain rfl : r.set_stop_flag flag = r' := Option.some.inj h
    exact iff_of_true (hr.set_stop_flag flag).respected trivial

/-- Where no function counts, there is nothing to respect. -/
theorem Faithful.within (hr : Faithful r) : Within (fun _ => false) r := by
  refine ⟨hr, ?_⟩
  intro before a after _ f _ _ hcounts
  exact absurd hcounts Bool.false_ne_true

theorem Faithful.execute (hr : Faithful r) : Faithful r.Execute.2 := by
  have hstart : Within (fun _ => false) (r.record .Execute) :=
    hr.within.record (fun _ => nofun) fun _ => nofun
  unfold Execute
  split
  next => exact hstart.simpleTask.faithful
  next => exact faithful_conditionalTask hstart.faithful
  next => exact hstart.loopTask.faithful

theorem Faithful.step {e : TaskEvent} {r' : TaskRun σ} (hr : Faithful r)
    (h : step r e = some r') : Faithful r' := by
  cases e with
  | Execute =>
    obtain rfl : r.Execute.2 = r' := Option.some.inj h
    exact hr.execute
  | Stop =>
    obtain rfl : r.Stop.2 = r' := Option.some.inj h
    exact hr.within.stop.faithful
  | set_stop_flag flag =>
    obtain rfl : r.set_stop_flag flag = r' := Option.some.inj h
    exact faithful_set_stop_flag r flag

theorem within_init (self : TaskClass σ) (stop_fn : StdFunction σ Unit Unit) (id_ : Int32)
    (state : σ) : Within counts (init self stop_fn id_ state) := by
  refine ⟨?_, always_nil⟩
  exact iff_of_false not_since_nil Bool.false_ne_true

/-- Every call returns to its caller. -/
theorem exists_run (r : TaskRun σ) (events : List TaskEvent) :
    ∃ r', run step r events = some r' := by
  induction events generalizing r with
  | nil => exact ⟨r, rfl⟩
  | cons e events ih =>
    obtain ⟨u, hu⟩ : ∃ u, TaskRun.step r e = some u := by cases e <;> exact ⟨_, rfl⟩
    obtain ⟨r', hr'⟩ := ih u
    exact ⟨r', (run_cons_eq_some _).mpr ⟨u, hu, hr'⟩⟩

/-- In a run of a new task a set flag keeps `Execute` from the user functions exactly when every
`Execute` of a conditional task with the flag set meets a condition that keeps it from them. -/
theorem stop_respected_iff (counts : UserFunction → Bool) (self : TaskClass σ)
    (stop_fn : StdFunction σ Unit Unit) (id_ : Int32) (state : σ) (events : List TaskEvent) :
    States step (fun r => StopRespected counts r.history) (init self stop_fn id_ state) events ↔
      Steps step (ConditionDeclines counts) (init self stop_fn id_ state) events := by
  obtain ⟨r', hrun⟩ := exists_run (init self stop_fn id_ state) events
  have hinit : Within counts (init self stop_fn id_ state) := within_init self stop_fn id_ state
  apply states_iff_steps (I := Faithful) (fun s e t hs ht => hs.step ht) _ hinit.faithful
    hinit.respected hrun
  intro s e t hs hrespected ht
  exact step_respected_iff ⟨hs, hrespected⟩ ht

/-- A conditional task whose condition returns true and whose function does nothing. -/
def alwaysTask : TaskClass Unit :=
  .ConditionalTask (some fun _ _ _ => ⟨[], .ok true, ()⟩) .null
    (some fun _ _ _ => ⟨[], .ok (), ()⟩)

/-- A stopped conditional task still runs. -/
theorem stopped_conditionalTask_runs :
    ∃ r : TaskRun Unit, run step (init alwaysTask none 0 ()) [.Stop, .Execute] = some r ∧
      r.history = [.stop_flag true, .Execute, .invoke .condition_fn_, .invoke .task_fn_] ∧
      ¬ StopRespected (fun f => f = .task_fn_) r.history := by
  refine ⟨_, rfl, rfl, fun hrespected => ?_⟩
  apply hrespected [.stop_flag true, .Execute, .invoke .condition_fn_] (.invoke .task_fn_) [] rfl
    .task_fn_ rfl nofun rfl
  -- the last `Execute` started after the flag was set
  refine ⟨[.stop_flag true], .Execute, [.invoke .condition_fn_], rfl, ⟨rfl, ?_⟩, by simp⟩
  exact ⟨[], .stop_flag true, [], rfl, rfl, by simp⟩

end TaskRun

end OpenAPT
