import OpenAPT.TaskExecute
import OpenAPT.TaskRunner

/-! What the task generator of `runner.cpp` makes of a document, entry by entry, and whether what it
makes can be executed. -/
namespace OpenAPT

open TaskRun

namespace TaskGenerator

variable {σ : Type}

section Requests

variable (env : TaskEnvironment σ)

def generateSimpleTask (taskName description : Bytes) (params : Json)
    (moduleName funcName : Bytes) : Option (Task σ) :=
  generateTask env (bytes "simple") taskName description params moduleName funcName

def generateConditionalTask (taskName description : Bytes) (params : Json) : Option (Task σ) :=
  generateTask env (bytes "conditional") taskName description params [] []

def generateLoopTask (taskName description : Bytes) (params : Json) : Option (Task σ) :=
  generateTask env (bytes "loop") taskName description params [] []

end Requests

/-- A call of the generator. -/
inductive GenerateCall
  | generateTask (taskType taskName description : Bytes) (params : Json)
      (moduleName funcName : Bytes)
  | generateSimpleTask (taskName description : Bytes) (params : Json)
      (moduleName funcName : Bytes)
  | generateConditionalTask (taskName description : Bytes) (params : Json)
  | generateLoopTask (taskName description : Bytes) (params : Json)
  | generateTasksFromJson (tasksJson : Json)

/-- The tasks the call returns that are not null. -/
def GenerateCall.returned (env : TaskEnvironment σ) : GenerateCall → List (Task σ)
  | generateTask taskType taskName description params moduleName funcName =>
    (TaskGenerator.generateTask env taskType taskName description params moduleName
      funcName).toList
  | generateSimpleTask taskName description params moduleName funcName =>
    (TaskGenerator.generateSimpleTask env taskName description params moduleName funcName).toList
  | generateConditionalTask taskName description params =>
    (TaskGenerator.generateConditionalTask env taskName description params).toList
  | generateLoopTask taskName description params =>
    (TaskGenerator.generateLoopTask env taskName description params).toList
  | generateTasksFromJson tasksJson =>
    match TaskGenerator.generateTasksFromJson env tasksJson with
    | .ok tasks => tasks
    | .error _ => []

/-! ### Entries -/

/-- What the loop of `generateTasksFromJson` goes through. -/
def entries (tasksJson : Json) : List Json :=
  match tasksJson.find? (bytes "tasks") with
  | none => []
  | some tasks => tasks.elements

def isString : Json → Bool
  | .string _ => true
  | _ => false

/-- The string under a key of an entry. -/
def stringField (taskJson : Json) (key : Bytes) : Bytes :=
  match taskJson.find? key with
  | some (.string s) => s
  | _ => []

def knownTypes : List Bytes := [bytes "simple", bytes "conditional", bytes "loop"]

def requiredFields : List Bytes := [bytes "type", bytes "name", bytes "description"]

def stringFields : List Bytes := requiredFields ++ [bytes "module_name", bytes "func_name"]

/-- The entry has a known type, a name and a description, and what it says of a module and a
function are strings. -/
def wellFormed (taskJson : Json) : Bool :=
  requiredFields.all taskJson.contains &&
    stringFields.all (fun key => (taskJson.find? key).all isString) &&
    knownTypes.contains (stringField taskJson (bytes "type"))

/-- The entry has the required fields, and holds something else than a string where a string is
read. -/
def misread (taskJson : Json) : Bool :=
  requiredFields.all taskJson.contains &&
    stringFields.any fun key => (taskJson.find? key).any fun j => !isString j

/-- The task has the type, name, description and parameters of the entry. -/
structure TaskOf (taskJson : Json) (t : Task σ) : Prop where
  type : taskJson.find? (bytes "type") = some (.string (AnyTask.task t).type)
  name : taskJson.find? (bytes "name") = some (.string t.name_)
  description : taskJson.find? (bytes "description") = some (.string t.description_)
  params : (AnyTask.task t).params_ =
    some ((taskJson.find? (bytes "params")).getD (.array []))

/-- The call returns, with one task for each well-formed entry and no others. -/
def Robust (env : TaskEnvironment σ) (tasksJson : Json) : Prop :=
  ∃ tasks, generateTasksFromJson env tasksJson = .ok tasks ∧
    List.Forall₂ TaskOf ((entries tasksJson).filter wellFormed) tasks

/-- The task of an entry, if it is well-formed. -/
def entryTask (env : TaskEnvironment σ) (taskJson : Json) : Option (Task σ) :=
  if wellFormed taskJson then
    generateTask env (stringField taskJson (bytes "type")) (stringField taskJson (bytes "name"))
      (stringField taskJson (bytes "description"))
      ((taskJson.find? (bytes "params")).getD (.array []))
      (stringField taskJson (bytes "module_name")) (stringField taskJson (bytes "func_name"))
  else none

variable {env : TaskEnvironment σ} {taskJson : Json}

theorem getString_of_isString {j : Json} (hj : isString j = true) : ∃ s, j = .string s := by
  cases j with
  | string s => exact ⟨s, rfl⟩
  | _ => cases hj

theorem stringField_of_find? {key : Bytes} {j : Json} (hfind : taskJson.find? key = some j)
    (hj : isString j = true) : taskJson.find? key = some (.string (stringField taskJson key)) := by
  obtain ⟨s, rfl⟩ := getString_of_isString hj
  rw [stringField, hfind]

theorem stringOr_of_all {key : Bytes} (hall : (taskJson.find? key).all isString = true) :
    stringOr taskJson key = .ok (stringField taskJson key) := by
  unfold stringOr stringField
  cases hfind : taskJson.find? key with
  | none => rfl
  | some j =>
    rw [hfind] at hall
    obtain ⟨s, rfl⟩ := getString_of_isString hall
    rfl

section GenerateTask

variable {taskType taskName description : Bytes} {params : Json} {moduleName funcName : Bytes}

theorem generateTask_ne_none_iff (env : TaskEnvironment σ)
    (taskType taskName description : Bytes) (params : Json) (moduleName funcName : Bytes) :
    generateTask env taskType taskName description params moduleName funcName ≠ none ↔
      taskType ∈ knownTypes := by
  simp only [knownTypes, List.mem_cons, List.not_mem_nil, or_false]
  unfold generateTask
  dsimp only
  split_ifs with hsimple hconditional hloop
  · exact iff_of_true (Option.some_ne_none _) (Or.inl hsimple)
  · exact iff_of_true (Option.some_ne_none _) (Or.inr (Or.inl hconditional))
  · exact iff_of_true (Option.some_ne_none _) (Or.inr (Or.inr hloop))
  · refine iff_of_false (not_not_intro rfl) ?_
    rintro (h | h | h)
    · exact hsimple h
    · exact hconditional h
    · exact hloop h

/-- A task is what it was asked to be. -/
theorem generateTask_spec {t : Task σ}
    (h : generateTask env taskType taskName description params moduleName funcName = some t) :
    (AnyTask.task t).type = taskType ∧ t.name_ = taskName ∧ t.description_ = description ∧
      (AnyTask.task t).params_ = some params := by
  unfold generateTask at h
  dsimp only at h
  split_ifs at h with hsimple hconditional hloop
  · obtain rfl := Option.some.inj h
    exact ⟨hsimple.symm, rfl, rfl, rfl⟩
  · obtain rfl := Option.some.inj h
    exact ⟨hconditional.symm, rfl, rfl, rfl⟩
  · obtain rfl := Option.some.inj h
    exact ⟨hloop.symm, rfl, rfl, rfl⟩

end GenerateTask

/-- Without one of the required fields an entry is passed over. -/
theorem generateEntry_of_missing (h : requiredFields.all taskJson.contains = false) :
    generateEntry env taskJson = .ok none := by
  unfold generateEntry
  split
  next type name desc htype hname hdesc =>
    simp [requiredFields, Json.contains, htype, hname, hdesc] at h
  next => rfl

theorem exists_required (h : requiredFields.all taskJson.contains = true) :
    ∃ type name desc, taskJson.find? (bytes "type") = some type ∧
      taskJson.find? (bytes "name") = some name ∧
      taskJson.find? (bytes "description") = some desc := by
  simp only [requiredFields, List.all_cons, List.all_nil, Bool.and_true, Bool.and_eq_true,
    Json.contains, Option.isSome_iff_exists] at h
  obtain ⟨⟨type, htype⟩, ⟨name, hname⟩, ⟨desc, hdesc⟩⟩ := h
  exact ⟨type, name, desc, htype, hname, hdesc⟩

/-- With strings wherever one is read, the task that is asked for is the one of the fields. -/
theorem generateEntry_of_strings (hrequired : requiredFields.all taskJson.contains = true)
    (hstrings : ∀ key ∈ stringFields, (taskJson.find? key).all isString = true) :
    generateEntry env taskJson = .ok (generateTask env
      (stringField taskJson (bytes "type")) (stringField taskJson (bytes "name"))
      (stringField taskJson (bytes "description"))
      ((taskJson.find? (bytes "params")).getD (.array []))
      (stringField taskJson (bytes "module_name"))
      (stringField taskJson (bytes "func_name"))) := by
  obtain ⟨type, name, desc, htype, hname, hdesc⟩ := exists_required hrequired
  have hget : ∀ key ∈ requiredFields, ∀ j, taskJson.find? key = some j →
      j.getString = .ok (stringField taskJson key) := by
    intro key hkey j hj
    have hstring := hstrings key (List.mem_append_left _ hkey)
    rw [hj] at hstring
    obtain ⟨s, rfl⟩ := getString_of_isString hstring
    rw [stringField, hj]
    rfl
  unfold generateEntry
  rw [htype, hname, hdesc]
  dsimp only
  rw [hget _ (by simp [requiredFields]) _ htype, hget _ (by simp [requiredFields]) _ hname,
    hget _ (by simp [requiredFields]) _ hdesc,
    stringOr_of_all (hstrings _ (by simp [stringFields])),
    stringOr_of_all (hstrings _ (by simp [stringFields]))]
  rfl

/-- An entry in which nothing is misread gives its task if it is well-formed. -/
theorem generateEntry_of_not_misread (h : misread taskJson = false) :
    generateEntry env taskJson = .ok (entryTask env taskJson) := by
  cases hrequired : requiredFields.all taskJson.contains with
  | false =>
    rw [generateEntry_of_missing hrequired, entryTask, wellFormed, hrequired]
    rfl
  | true =>
    rw [misread, hrequired, Bool.true_and, List.any_eq_false] at h
    have hstrings : ∀ key ∈ stringFields, (taskJson.find? key).all isString = true := by
      intro key hkey
      have hnot := h key hkey
      cases hfind : taskJson.find? key with
      | none => rfl
      | some j =>
        rw [hfind] at hnot
        simpa using hnot
    have hall : stringFields.all (fun key => (taskJson.find? key).all isString) = true :=
      List.all_eq_true.mpr hstrings
    rw [generateEntry_of_strings hrequired hstrings, entryTask, wellFormed, hrequired, hall,
      Bool.true_and, Bool.true_and]
    split_ifs with hknown
    · rfl
    · -- an unknown type is the only thing left that can be wrong, and gives no task
      rw [List.contains_iff_mem] at hknown
      rw [not_not.mp (mt (generateTask_ne_none_iff env _ _ _ _ _ _).mp hknown)]

/-- What was read as a string is one. -/
theorem isString_of_getString {j : Json} {s : Bytes} (h : j.getString = .ok s) :
    isString j = true := by
  cases j with
  | string s => rfl
  | _ => cases h

/-- An entry in which something is misread throws where that is read, if not before. -/
theorem generateEntry_of_misread (env : TaskEnvironment σ) (h : misread taskJson = true) :
    ∃ e, generateEntry env taskJson = .error e := by
  rw [misread, Bool.and_eq_true, List.any_eq_true] at h
  obtain ⟨hrequired, key, hkey, hany⟩ := h
  obtain ⟨type, name, desc, htype, hname, hdesc⟩ := exists_required hrequired
  have hread : ∀ key j s, taskJson.find? key = some j → j.getString = .ok s →
      (taskJson.find? key).any (fun j => !isString j) = false := by
    intro key j s hfind hs
    rw [hfind, Option.any_some, isString_of_getString hs]
    rfl
  have hreadOr : ∀ key s, stringOr taskJson key = .ok s →
      (taskJson.find? key).any (fun j => !isString j) = false := by
    intro key s hs
    unfold stringOr at hs
    cases hfind : taskJson.find? key with
    | none => rfl
    | some j =>
      rw [hfind] at hs
      rw [← hfind]
      exact hread key j s hfind hs
  unfold generateEntry
  rw [htype, hname, hdesc]
  dsimp only
  cases hs₁ : type.getString with
  | error e => exact ⟨e, rfl⟩
  | ok s₁ =>
  cases hs₂ : name.getString with
  | error e => exact ⟨e, rfl⟩
  | ok s₂ =>
  cases hs₃ : desc.getString with
  | error e => exact ⟨e, rfl⟩
  | ok s₃ =>
  cases hs₄ : stringOr taskJson (bytes "module_name") with
  | error e => exact ⟨e, rfl⟩
  | ok s₄ =>
  cases hs₅ : stringOr taskJson (bytes "func_name") with
  | error e => exact ⟨e, rfl⟩
  | ok s₅ =>
    -- everything was read, so the key is none of those that are
    have hall : ∀ key ∈ stringFields,
        (taskJson.find? key).any (fun j => !isString j) = false := by
      simp only [stringFields, requiredFields, List.cons_append, List.nil_append,
        List.forall_mem_cons]
      exact ⟨hread _ _ _ htype hs₁, hread _ _ _ hname hs₂, hread _ _ _ hdesc hs₃,
        hreadOr _ _ hs₄, hreadOr _ _ hs₅, List.forall_mem_nil _⟩
    rw [hall key hkey] at hany
    cases hany

/-! ### Documents -/

theorem generateEntries_of_not_misread {l : List Json} (h : ∀ e ∈ l, misread e = false) :
    generateEntries env l = .ok (l.filterMap (entryTask env)) := by
  induction l with
  | nil => rfl
  | cons e l ih =>
    rw [generateEntries, generateEntry_of_not_misread (h e (List.mem_cons_self)),
      ih fun e' he' => h e' (List.mem_cons_of_mem e he')]
    cases htask : entryTask env e with
    | none =>
      rw [List.filterMap_cons_none htask]
      rfl
    | some t =>
      rw [List.filterMap_cons_some htask]
      rfl

/-- One misread entry takes down the whole list. -/
theorem generateEntries_of_misread (env : TaskEnvironment σ) {l : List Json} {e : Json}
    (he : e ∈ l) (hmisread : misread e = true) : ∃ x, generateEntries env l = .error x := by
  induction l with
  | nil => cases he
  | cons e' l ih =>
    rw [generateEntries]
    cases hentry : generateEntry env e' with
    | error x => exact ⟨x, rfl⟩
    | ok task =>
      rcases List.mem_cons.mp he with rfl | hmem
      · obtain ⟨x, hx⟩ := generateEntry_of_misread env hmisread
        rw [hentry] at hx
        cases hx
      · obtain ⟨x, hx⟩ := ih hmem
        rw [hx]
        exact ⟨x, rfl⟩

theorem generateTasksFromJson_eq (env : TaskEnvironment σ) (tasksJson : Json) :
    generateTasksFromJson env tasksJson = generateEntries env (entries tasksJson) := by
  unfold generateTasksFromJson entries
  cases tasksJson.find? (bytes "tasks") with
  | none => rfl
  | some tasks => rfl

theorem wellFormed_iff : wellFormed taskJson = true ↔
    requiredFields.all taskJson.contains = true ∧
      stringFields.all (fun key => (taskJson.find? key).all isString) = true ∧
      stringField taskJson (bytes "type") ∈ knownTypes := by
  rw [wellFormed, Bool.and_eq_true, Bool.and_eq_true, and_assoc, List.contains_iff_mem]

/-- A well-formed entry has its task. -/
theorem exists_entryTask (env : TaskEnvironment σ) (hwell : wellFormed taskJson = true) :
    ∃ t, entryTask env taskJson = some t ∧ TaskOf taskJson t := by
  obtain ⟨hrequired, hstrings, hknown⟩ := wellFormed_iff.mp hwell
  obtain ⟨type, name, desc, htype, hname, hdesc⟩ := exists_required hrequired
  rw [entryTask, if_pos hwell]
  obtain ⟨t, ht⟩ := Option.ne_none_iff_exists'.mp
    ((generateTask_ne_none_iff env _ _ _ _ _ _).mpr hknown)
  refine ⟨t, ht, ?_⟩
  obtain ⟨htasktype, htaskname, htaskdesc, htaskparams⟩ := generateTask_spec ht
  have hfield : ∀ key ∈ stringFields, ∀ j, taskJson.find? key = some j →
      taskJson.find? key = some (.string (stringField taskJson key)) := by
    intro key hkey j hj
    have hstring := List.all_eq_true.mp hstrings key hkey
    rw [hj] at hstring
    exact stringField_of_find? hj hstring
  constructor
  · rw [htasktype]
    exact hfield _ (by simp [stringFields, requiredFields]) _ htype
  · rw [htaskname]
    exact hfield _ (by simp [stringFields, requiredFields]) _ hname
  · rw [htaskdesc]
    exact hfield _ (by simp [stringFields, requiredFields]) _ hdesc
  · exact htaskparams

theorem entryTask_of_not_wellFormed (hwell : wellFormed taskJson = false) :
    entryTask env taskJson = none := by
  rw [entryTask, hwell]
  rfl

theorem forall₂_taskOf (env : TaskEnvironment σ) (l : List Json) :
    List.Forall₂ TaskOf (l.filter wellFormed) (l.filterMap (entryTask env)) := by
  induction l with
  | nil => exact List.Forall₂.nil
  | cons e l ih =>
    cases hwell : wellFormed e with
    | false =>
      rw [List.filter_cons_of_neg (by rw [hwell]; exact Bool.false_ne_true),
        List.filterMap_cons_none (entryTask_of_not_wellFormed hwell)]
      exact ih
    | true =>
      obtain ⟨t, ht, htaskOf⟩ := exists_entryTask env hwell
      rw [List.filter_cons_of_pos hwell, List.filterMap_cons_some ht]
      exact List.Forall₂.cons htaskOf ih

/-- A document gives its well-formed entries as tasks exactly when no entry is misread. -/
theorem robust_iff (env : TaskEnvironment σ) (tasksJson : Json) :
    Robust env tasksJson ↔ ∀ taskJson ∈ entries tasksJson, misread taskJson = false := by
  rw [Robust, generateTasksFromJson_eq]
  constructor
  · rintro ⟨tasks, hok, -⟩ taskJson hmem
    apply Bool.eq_false_iff.mpr
    intro hmisread
    obtain ⟨e, he⟩ := generateEntries_of_misread env hmem hmisread
    rw [hok] at he
    cases he
  · intro h
    exact ⟨_, generateEntries_of_not_misread h, forall₂_taskOf env _⟩

/-- A document with one task, whose type is the number 1. -/
def numberTyped : Json :=
  .object [(bytes "tasks", .array [.object [(bytes "description", .string []),
    (bytes "name", .string []), (bytes "type", .numberUnsigned 1)]])]

/-- An exception is all that comes of it. -/
theorem not_robust_numberTyped : ¬ Robust TaskManager.plainEnvironment numberTyped := by
  rintro ⟨tasks, hok, -⟩
  cases hok

/-! ### Functions -/

/-- The lookup has a function for the names: a built-in one, or one of a module. -/
def NamesFunction (moduleName funcName : Bytes) : Prop :=
  funcName = bytes "Print" ∨ funcName = bytes "Sum" ∨ moduleName ≠ []

/-- The conversions of a `std::function` give an empty one for an empty one, and only then. -/
def KeepsEmptiness (env : TaskEnvironment σ) : Prop :=
  (∀ f, env.toFunction f = none ↔ f = none) ∧ ∀ f, env.toCondition f = none ↔ f = none

/-- What the call asks for names a function wherever it makes a task. -/
def GenerateCall.Named : GenerateCall → Prop
  | generateTask taskType _ _ _ moduleName funcName =>
    taskType ∈ knownTypes → NamesFunction moduleName funcName
  | generateSimpleTask _ _ _ moduleName funcName => NamesFunction moduleName funcName
  | generateConditionalTask _ _ _ => False
  | generateLoopTask _ _ _ => False
  | generateTasksFromJson tasksJson =>
    (∀ taskJson ∈ entries tasksJson, misread taskJson = false) →
      ∀ taskJson ∈ entries tasksJson, wellFormed taskJson = true →
        NamesFunction (stringField taskJson (bytes "module_name"))
          (stringField taskJson (bytes "func_name"))

theorem getTaskFunction_ne_none_iff (env : TaskEnvironment σ) (funcName moduleName : Bytes) :
    getTaskFunction env funcName moduleName ≠ none ↔ NamesFunction moduleName funcName := by
  unfold getTaskFunction NamesFunction
  split_ifs with hprint hsum hmodule
  · exact iff_of_true (Option.some_ne_none _) (Or.inl hprint)
  · exact iff_of_true (Option.some_ne_none _) (Or.inr (Or.inl hsum))
  · exact iff_of_true (Option.some_ne_none _) (Or.inr (Or.inr hmodule))
  · apply iff_of_false (not_not_intro rfl)
    rintro (h | h | h)
    · exact hprint h
    · exact hsum h
    · exact hmodule h

section Runnable

variable {taskType taskName description : Bytes} {params : Json} {moduleName funcName : Bytes}

/-- Whatever the class is, the looked-up function is the one that can be empty. -/
theorem runnable_generateTask_iff (hkeeps : KeepsEmptiness env) {t : Task σ}
    (h : generateTask env taskType taskName description params moduleName funcName = some t) :
    Runnable t.self ↔ NamesFunction moduleName funcName := by
  rw [runnable_iff_holdsFunctions, ← getTaskFunction_ne_none_iff env]
  unfold generateTask at h
  dsimp only at h
  split_ifs at h with hsimple hconditional hloop
  · obtain rfl := Option.some.inj h
    exact not_congr (hkeeps.1 _)
  · obtain rfl := Option.some.inj h
    -- the predicate is there in any case
    exact (and_iff_left (Option.some_ne_none _)).trans (not_congr (hkeeps.2 _))
  · obtain rfl := Option.some.inj h
    exact Iff.rfl

theorem runnable_toList_iff (hkeeps : KeepsEmptiness env) :
    (∀ t ∈ (generateTask env taskType taskName description params moduleName funcName).toList,
        Runnable t.self) ↔
      (taskType ∈ knownTypes → NamesFunction moduleName funcName) := by
  rw [← generateTask_ne_none_iff env taskType taskName description params moduleName funcName]
  cases htask : generateTask env taskType taskName description params moduleName funcName with
  | none => simp
  | some t =>
    have hiff := runnable_generateTask_iff hkeeps htask
    simpa using hiff

theorem runnable_entries_iff (hkeeps : KeepsEmptiness env) (l : List Json) :
    (∀ t ∈ l.filterMap (entryTask env), Runnable t.self) ↔
      ∀ taskJson ∈ l, wellFormed taskJson = true →
        NamesFunction (stringField taskJson (bytes "module_name"))
          (stringField taskJson (bytes "func_name")) := by
  have hentry : ∀ taskJson t, entryTask env taskJson = some t →
      (Runnable t.self ↔ NamesFunction (stringField taskJson (bytes "module_name"))
        (stringField taskJson (bytes "func_name"))) := by
    intro taskJson t ht
    unfold entryTask at ht
    split_ifs at ht
    exact runnable_generateTask_iff hkeeps ht
  constructor
  · intro h taskJson hmem hwell
    obtain ⟨t, ht, -⟩ := exists_entryTask env hwell
    exact (hentry taskJson t ht).mp (h t (List.mem_filterMap.mpr ⟨taskJson, hmem, ht⟩))
  · intro h t hmem
    obtain ⟨taskJson, hmem, ht⟩ := List.mem_filterMap.mp hmem
    apply (hentry taskJson t ht).mpr
    refine h taskJson hmem (Bool.not_eq_false _ |>.mp fun hwell => ?_)
    rw [entryTask_of_not_wellFormed hwell] at ht
    cases ht

/-- The tasks a call returns can be executed exactly when it names their functions. -/
theorem runnable_iff (hkeeps : KeepsEmptiness env) (call : GenerateCall) :
    (∀ t ∈ call.returned env, Runnable t.self) ↔ call.Named := by
  -- neither a built-in function nor a module goes by the empty name
  have hunnamed : ¬ NamesFunction [] [] := by
    rintro (h | h | h)
    · revert h
      decide
    · revert h
      decide
    · exact h rfl
  cases call with
  | generateTask taskType taskName description params moduleName funcName =>
    exact runnable_toList_iff hkeeps
  | generateSimpleTask taskName description params moduleName funcName =>
    have hknown : bytes "simple" ∈ knownTypes := by decide
    exact (runnable_toList_iff hkeeps).trans (forall_prop_of_true hknown)
  | generateConditionalTask taskName description params =>
    have hknown : bytes "conditional" ∈ knownTypes := by decide
    exact (runnable_toList_iff hkeeps).trans (iff_of_false (fun h => hunnamed (h hknown)) not_false)
  | generateLoopTask taskName description params =>
    have hknown : bytes "loop" ∈ knownTypes := by decide
    exact (runnable_toList_iff hkeeps).trans (iff_of_false (fun h => hunnamed (h hknown)) not_false)
  | generateTasksFromJson tasksJson =>
    simp only [GenerateCall.returned, GenerateCall.Named, generateTasksFromJson_eq]
    by_cases hread : ∀ taskJson ∈ entries tasksJson, misread taskJson = false
    · rw [generateEntries_of_not_misread hread]
      exact (runnable_entries_iff hkeeps _).trans ⟨fun h _ => h, fun h => h hread⟩
    · push Not at hread
      obtain ⟨taskJson, hmem, hmisread⟩ := hread
      obtain ⟨e, he⟩ := generateEntries_of_misread env hmem (by simpa using hmisread)
      rw [he]
      refine iff_of_true (fun t ht => ?_) (fun h => ?_)
      · cases ht
      · exact absurd (h taskJson hmem) hmisread

end Runnable

theorem keepsEmptiness_plain : KeepsEmptiness TaskManager.plainEnvironment :=
  ⟨fun _ => Option.map_eq_none_iff, fun _ => Option.map_eq_none_iff⟩

theorem runnable_iff_print :
    (∀ t ∈ (GenerateCall.generateSimpleTask [] [] .null [] (bytes "Print")).returned
        TaskManager.plainEnvironment, Runnable t.self) ↔
      (GenerateCall.generateSimpleTask [] [] .null [] (bytes "Print")).Named :=
  runnable_iff keepsEmptiness_plain _

/-- A loop task of the generator has no function. -/
theorem generateLoopTask_not_runnable :
    ¬ ∀ t ∈ (GenerateCall.generateLoopTask [] [] .null).returned TaskManager.plainEnvironment,
      Runnable t.self := by
  intro h
  have hholds := (h _ (List.mem_cons_self)).1
  exact hholds rfl

end TaskGenerator

end OpenAPT
