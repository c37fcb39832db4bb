import OpenAPT.Task

/-! The task generator and the task manager of `runner.cpp`: tasks from JSON documents, and the
document a task list is saved as. -/
namespace OpenAPT

/-- A task of the list of the manager, by its class. -/
inductive AnyTask (σ : Type)
  | task (t : Task σ)
  | DaemonTask (base : BasicTask σ) (task_fn_ : StdFunction σ Unit Unit)

namespace AnyTask

variable {σ : Type}

def base : AnyTask σ → BasicTask σ
  | task t => t.toBasicTask
  | DaemonTask base _ => base

/-- The `type` of `ToJson()`. -/
def type : AnyTask σ → Bytes
  | task t =>
    match t.self with
    | .SimpleTask _ _ _ => bytes "simple"
    | .ConditionalTask _ _ _ => bytes "conditional"
    | .LoopTask _ _ => bytes "loop"
  | DaemonTask _ _ => bytes "daemon"

/-- A daemon has no parameters. -/
def params_ : AnyTask σ → Option Json
  | task t =>
    match t.self with
    | .SimpleTask _ params_ _ => some params_
    | .ConditionalTask _ params_ _ => some params_
    | .LoopTask _ params_ => some params_
  | DaemonTask _ _ => none

end AnyTask

/-- What the generator takes from elsewhere: the functions of the loaded modules, the conversions
from a function without a result that the constructor calls need, and what memory holds where a
constructor sets nothing. -/
structure TaskEnvironment (σ : Type) where
  LoadAndRunFunction : Bytes → Bytes → Bool → σ → Call σ Unit
  toFunction : StdFunction σ Json Unit → StdFunction σ Json Json
  toCondition : StdFunction σ Json Unit → StdFunction σ Json Bool
  indeterminate : Int32

/-- `get<int>()` as far as it throws. -/
def checkInt : Json → Except StdException Unit
  | .boolean _ | .numberInteger _ | .numberUnsigned _ | .numberFloat _ => .ok ()
  | j => .error ⟨bytes "[json.exception.type_error.302] type must be number, but is " ++ j.typeName⟩

/-- Whether `get<int>()` is 1: the low 32 bits of an integer, and a float from 1 up to 2. -/
def isOne : Json → Bool
  | .boolean b => b
  | .numberInteger i => i.toInt32 = 1
  | .numberUnsigned n => n.toUInt32 = 1
  | .numberFloat bits => 0x3FF0000000000000 ≤ bits ∧ bits < 0x4000000000000000
  | _ => false

namespace TaskGenerator

variable {σ : Type} (env : TaskEnvironment σ)

def getTaskFunction (funcName moduleName : Bytes) : StdFunction σ Json Unit :=
  if funcName = bytes "Print" then some fun _ _ s => ⟨[], .ok (), s⟩
  else if funcName = bytes "Sum" then some fun j _ s => ⟨[], j.elements.forM checkInt, s⟩
  else if moduleName ≠ [] then some fun _ flag s => env.LoadAndRunFunction moduleName funcName flag s
  else none

/-- `j.contains("status") && j["status"].get<int>() == 1`. -/
def predicate (j : Json) : Except StdException Bool :=
  match j.find? (bytes "status") with
  | none => .ok false
  | some status => (checkInt status).map fun _ => isOne status

def generateTask (taskType taskName description : Bytes) (params : Json)
    (moduleName funcName : Bytes) : Option (Task σ) :=
  let taskFunction := getTaskFunction env funcName moduleName
  let named (self : TaskClass σ) : Task σ :=
    { BasicTask.make env.indeterminate none with
      name_ := taskName
      description_ := description
      self := self }
  if taskType = bytes "simple" then
    some (named (.SimpleTask (env.toFunction taskFunction) params .null))
  else if taskType = bytes "conditional" then
    -- the function stands where the condition belongs, and the predicate where the function does
    some (named (.ConditionalTask (env.toCondition taskFunction) params
      (some fun j _ s => ⟨[], (predicate j).map fun _ => (), s⟩)))
  else if taskType = bytes "loop" then
    some (named (.LoopTask taskFunction params))
  else none

/-- `value(key, "")`. -/
def stringOr (j : Json) (key : Bytes) : Except StdException Bytes :=
  match j.find? key with
  | none => .ok []
  | some child => child.getString

/-- One turn of the loop of `generateTasksFromJson`. -/
def generateEntry (taskJson : Json) : Except StdException (Option (Task σ)) :=
  match taskJson.find? (bytes "type"), taskJson.find? (bytes "name"),
      taskJson.find? (bytes "description") with
  | some type, some name, some desc => do
    let type ← type.getString
    let name ← name.getString
    let desc ← desc.getString
    let params := (taskJson.find? (bytes "params")).getD (.array [])
    let moduleName ← stringOr taskJson (bytes "module_name")
    let funcName ← stringOr taskJson (bytes "func_name")
    pure (generateTask env type name desc params moduleName funcName)
  | _, _, _ => .ok none

def generateEntries : List Json → Except StdException (List (Task σ))
  | [] => .ok []
  | taskJson :: rest => do
    let task ← generateEntry env taskJson
    let tasks ← generateEntries rest
    pure (task.toList ++ tasks)

def generateTasksFromJson (tasksJson : Json) : Except StdException (List (Task σ)) :=
  match tasksJson.find? (bytes "tasks") with
  | none => .ok []
  | some tasks => generateEntries env tasks.elements

/-- `generateTasksFromFile` on a file that can be opened: `parse` reads one JSON text. -/
def generateTasksFromFile (parse : Bytes → Option Json) (file : Bytes) :
    Except StdException (List (Task σ)) :=
  match parse file with
  | none => .ok []
  | some tasksJson => generateTasksFromJson env tasksJson

end TaskGenerator

namespace TaskManager

variable {σ : Type}

/-- The document of a task list: `push_back` turns the null it starts from into an array. -/
def tasksJson (m_taskList : List (AnyTask σ)) : Json :=
  match m_taskList with
  | [] => .null
  | tasks => .array (tasks.map fun task => .object
      [(bytes "description", .string task.base.description_),
        (bytes "id", .numberInteger task.base.id_.toInt64)])

/-- What `outFile << std::setw(4) << j << std::endl` leaves in the file. The serializer writes to
the stream until it is done or throws; then the exception is caught, and there is no newline. -/
def written : Bytes × Option StdException → Bytes
  | (text, none) => text ++ bytes "\n"
  | (text, some _) => text

/-- `saveTasksToJson` with a file it can open. -/
def saveTasksToJson (print : Json → Bytes × Option StdException) (m_taskList : List (AnyTask σ)) :
    Bytes :=
  written (print (tasksJson m_taskList))

/-- A null or an array that was written reads back as a value of its type, or not at all, as when
the serializer threw on the way. -/
def ReadsBack (parse : Bytes → Option Json) (print : Json → Bytes × Option StdException) : Prop :=
  ∀ j, j.typeName = bytes "null" ∨ j.typeName = bytes "array" →
    ∀ read, parse (written (print j)) = some read → read.typeName = j.typeName

/-- Loading what was saved gives as many tasks, with the same types, names, descriptions and
parameters in the same order. -/
def RoundTrips (env : TaskEnvironment σ) (parse : Bytes → Option Json)
    (print : Json → Bytes × Option StdException) (m_taskList : List (AnyTask σ)) : Prop :=
  ∃ tasks, TaskGenerator.generateTasksFromFile env parse (saveTasksToJson print m_taskList) =
      .ok tasks ∧
    (tasks.map fun t => ((AnyTask.task t).type, t.name_, t.description_, (AnyTask.task t).params_)) =
      m_taskList.map fun t => (t.type, t.base.name_, t.base.description_, t.params_)

section RoundTrip

variable {env : TaskEnvironment σ} {parse : Bytes → Option Json}
  {print : Json → Bytes × Option StdException} {m_taskList : List (AnyTask σ)}

/-- The document is not an object, whatever the tasks are. -/
theorem typeName_tasksJson (m_taskList : List (AnyTask σ)) :
    (tasksJson m_taskList).typeName = bytes "null" ∨
      (tasksJson m_taskList).typeName = bytes "array" := by
  cases m_taskList with
  | nil => exact Or.inl rfl
  | cons task tasks => exact Or.inr rfl

theorem find?_of_typeName_ne {j : Json} (hj : j.typeName ≠ bytes "object") (key : Bytes) :
    j.find? key = none := by
  cases j with
  | object o => exact absurd rfl hj
  | _ => rfl

/-- A document that is not an object has no tasks. -/
theorem generateTasksFromJson_of_typeName_ne {j : Json} (hj : j.typeName ≠ bytes "object") :
    TaskGenerator.generateTasksFromJson env j = .ok [] := by
  rw [TaskGenerator.generateTasksFromJson, find?_of_typeName_ne hj]

/-- Nothing is loaded from what was saved. -/
theorem generateTasksFromFile_saved (hreads : ReadsBack parse print)
    (m_taskList : List (AnyTask σ)) :
    TaskGenerator.generateTasksFromFile env parse (saveTasksToJson print m_taskList) = .ok [] := by
  unfold TaskGenerator.generateTasksFromFile
  split
  next => rfl
  next read hread =>
    have htype : read.typeName = (tasksJson m_taskList).typeName :=
      hreads _ (typeName_tasksJson m_taskList) read hread
    apply generateTasksFromJson_of_typeName_ne
    rw [htype]
    rcases typeName_tasksJson m_taskList with hnull | harray
    · rw [hnull]
      decide
    · rw [harray]
      decide

end RoundTrip

/-- A task list survives saving and loading exactly when it is empty. -/
theorem roundTrips_iff (env : TaskEnvironment σ) {parse : Bytes → Option Json}
    {print : Json → Bytes × Option StdException} (hreads : ReadsBack parse print)
    (m_taskList : List (AnyTask σ)) : RoundTrips env parse print m_taskList ↔ m_taskList = [] := by
  constructor
  · intro ⟨tasks, hload, hsame⟩
    rw [generateTasksFromFile_saved hreads] at hload
    obtain rfl : [] = tasks := Except.ok.inj hload
    exact List.map_eq_nil_iff.mp hsame.symm
  · intro hnil
    exact ⟨[], generateTasksFromFile_saved hreads m_taskList, by rw [hnil]; rfl⟩

/-- The text of one task without a description and with the id 0. -/
def oneTaskText : Bytes :=
  bytes "[\n    \x7b\n        \"description\": \"\",\n        \"id\": 0\n    \x7d\n]"

/-- The writer and the reader on the documents of an empty list and of one such task. -/
def printOne : Json → Bytes × Option StdException
  | .null => (bytes "null", none)
  | _ => (oneTaskText, none)

def parseOne (text : Bytes) : Option Json :=
  if text = bytes "null\n" then some .null
  else if text = oneTaskText ++ bytes "\n" then
    some (.array [.object [(bytes "description", .string []), (bytes "id", .numberUnsigned 0)]])
  else none

theorem readsBack_one : ReadsBack parseOne printOne := by
  intro j hj read hread
  cases j with
  | null =>
    have hnull : parseOne (written (printOne .null)) = some .null := rfl
    obtain rfl : Json.null = read := Option.some.inj (hnull.symm.trans hread)
    rfl
  | array a =>
    have harray : (parseOne (oneTaskText ++ bytes "\n")).map Json.typeName =
        some (bytes "array") := by decide +kernel
    have htext : parseOne (oneTaskText ++ bytes "\n") = some read := hread
    rw [htext] at harray
    exact Option.some.inj harray
  | _ => exact absurd hj (by simp only [Json.typeName]; decide)

def plainEnvironment : TaskEnvironment Unit where
  LoadAndRunFunction _ _ _ s := ⟨[], .ok (), s⟩
  toFunction f := f.map fun f x flag s =>
    { f x flag s with result := (f x flag s).result.map fun _ => .null }
  toCondition f := f.map fun f x flag s =>
    { f x flag s with result := (f x flag s).result.map fun _ => true }
  indeterminate := 0

theorem roundTrips_nil : RoundTrips plainEnvironment parseOne printOne [] :=
  (roundTrips_iff plainEnvironment readsBack_one []).mpr rfl

/-- A saved task that does nothing is not loaded again. -/
theorem one_task_lost :
    ¬ RoundTrips plainEnvironment parseOne printOne
      [.task ⟨BasicTask.make 0 none, .SimpleTask (some fun _ _ s => ⟨[], .ok .null, s⟩) .null .null⟩]
    := by
  intro ⟨tasks, hload, hsame⟩
  rw [generateTasksFromFile_saved readsBack_one] at hload
  obtain rfl : [] = tasks := Except.ok.inj hload
  exact List.cons_ne_nil _ _ hsame.symm

end TaskManager

end OpenAPT
