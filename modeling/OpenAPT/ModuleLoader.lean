import OpenAPT.Json
import OpenAPT.Lib.EventMachine

/-! The handles of `ModuleLoader`. -/
namespace OpenAPT

/-- `value(key, default)` for a text. -/
def Json.valueString (key default : Bytes) : Json → Except StdException Bytes
  | .object o =>
    match KeyedList.find? key o with
    | some j => j.getString
    | none => .ok default
  | j => .error ⟨bytes "[json.exception.type_error.306] cannot use value() with " ++ j.typeName⟩

/-- What a call of `LoadModule` finds at its path: whether the library exists, the handle that
`dlopen` returns (`none` is null), whether the info file exists, and what is read from it. -/
structure ModuleFiles (Handle : Type*) where
  existsLibrary : Except StdException Bool
  LOAD_LIBRARY : Option Handle
  existsConfig : Except StdException Bool
  config : Except StdException Json

/-- `handles_` with the record of the successful calls of `dlopen` and `dlclose`, by the handles
they returned and were given. -/
structure ModuleLoader (Handle : Type*) where
  handles_ : List (Bytes × Handle)
  opened : List Handle
  closed : List Handle

/-- The calls. An unloading comes with the result of its `dlclose`. -/
inductive ModuleCall (Handle : Type*)
  | LoadModule (files : ModuleFiles Handle) (name : Bytes)
  | UnloadModule (filename : Bytes) (result : Int32)

/-- The reads of the info file; their values only go to the log. -/
def logModule (config : Json) : Except StdException Unit := do
  match config.find? (bytes "name"), config.find? (bytes "version"),
    config.find? (bytes "author") with
  | some _, some version, some author =>
    let _version ← version.getString
    let _author ← author.getString
    let _license ← config.valueString (bytes "license") []
    let _name ← config.valueString (bytes "name") (bytes "Unknown")
    pure ()
  | _, _, _ => pure ()

namespace ModuleFiles

variable {Handle : Type*}

/-- `LoadModule` between `dlopen` and the store of the handle. -/
def readConfig (files : ModuleFiles Handle) : Except StdException Unit := do
  if ← files.existsConfig then logModule (← files.config)

/-- The handle of a library that this call opens. -/
def opens (files : ModuleFiles Handle) : Option Handle :=
  match files.existsLibrary with
  | .ok true => files.LOAD_LIBRARY
  | .ok false | .error _ => none

end ModuleFiles

namespace ModuleLoader

variable {Handle : Type*}

def init : ModuleLoader Handle := ⟨[], [], []⟩

/-- Every exception ends in the handler of `LoadModule`, which returns false. -/
def LoadModule (m : ModuleLoader Handle) (files : ModuleFiles Handle) (name : Bytes) :
    Bool × ModuleLoader Handle :=
  match files.opens with
  | none => (false, m)
  | some handle =>
    match files.readConfig with
    | .error _ => (false, { m with opened := m.opened ++ [handle] })
    | .ok () =>
      (true, { m with handles_ := KeyedList.insert name handle m.handles_,
                      opened := m.opened ++ [handle] })

/-- No handle in the map is null. -/
def UnloadModule (m : ModuleLoader Handle) (filename : Bytes) (result : Int32) :
    Bool × ModuleLoader Handle :=
  match KeyedList.find? filename m.handles_ with
  | none => (false, m)
  | some handle =>
    if result = 0 then
      (true, { m with handles_ := KeyedList.erase filename m.handles_,
                      closed := m.closed ++ [handle] })
    else (false, m)

/-- The answer of a call and the state after it. -/
def call (m : ModuleLoader Handle) : ModuleCall Handle → Bool × ModuleLoader Handle
  | .LoadModule files name => m.LoadModule files name
  | .UnloadModule filename result => m.UnloadModule filename result

def step (m : ModuleLoader Handle) (c : ModuleCall Handle) : Option (ModuleLoader Handle) :=
  some (m.call c).2

/-- As many libraries are open as `handles_` has entries. -/
def Balanced (m : ModuleLoader Handle) : Prop :=
  m.opened.length = m.closed.length + m.handles_.length

/-- A `LoadModule` call that returns false leaves no library open that was not open before, and
`handles_` as it was. -/
def FailsClean (m : ModuleLoader Handle) (c : ModuleCall Handle) : Prop :=
  match c with
  | .LoadModule files name =>
    (m.LoadModule files name).1 = false →
      (m.LoadModule files name).2.opened.length + m.closed.length =
        m.opened.length + (m.LoadModule files name).2.closed.length ∧
      (m.LoadModule files name).2.handles_ = m.handles_
  | .UnloadModule _ _ => True

/-- What a `LoadModule` call needs in order to keep the balance: if it opens a library, its info
file is missing or good, and no module has the name yet. -/
def KeepsBalance (m : ModuleLoader Handle) (c : ModuleCall Handle) : Prop :=
  match c with
  | .LoadModule files name =>
    files.opens ≠ none → files.readConfig = .ok () ∧ KeyedList.find? name m.handles_ = none
  | .UnloadModule _ _ => True

/-- The handles that a call leaves open and out of `handles_`. -/
def lost (m : ModuleLoader Handle) : ModuleCall Handle → List Handle
  | .LoadModule files name =>
    match files.opens, files.readConfig with
    | none, _ => []
    | some handle, .error _ => [handle]
    | some _, .ok () => (KeyedList.find? name m.handles_).toList
  | .UnloadModule _ _ => []

/-- The account of one call, for the handles with any property: what is opened is closed, goes
into `handles_` or is lost. -/
theorem countP_call (p : Handle → Bool) (m : ModuleLoader Handle) (c : ModuleCall Handle) :
    (m.call c).2.opened.countP p + m.closed.countP p + m.handles_.countP (fun e => p e.2) =
      m.opened.countP p + (m.call c).2.closed.countP p +
        (m.call c).2.handles_.countP (fun e => p e.2) + (m.lost c).countP p := by
  cases c with
  | LoadModule files name =>
    cases hopens : files.opens with
    | none => simp only [call, LoadModule, lost, hopens, List.countP_nil, Nat.add_zero]
    | some handle =>
      cases hread : files.readConfig with
      | error e =>
        simp only [call, LoadModule, lost, hopens, hread, List.countP_append]
        omega
      | ok u =>
        have hinsert : (KeyedList.insert name handle m.handles_).countP (fun e => p e.2) +
            (KeyedList.find? name m.handles_).toList.countP p =
              m.handles_.countP (fun e => p e.2) + if p handle then 1 else 0 :=
          KeyedList.countP_insert (fun e => p e.2) name handle m.handles_
        simp only [call, LoadModule, lost, hopens, hread, List.countP_append, List.countP_singleton]
        omega
  | UnloadModule filename result =>
    cases hfind : KeyedList.find? filename m.handles_ with
    | none => simp only [call, UnloadModule, lost, hfind, List.countP_nil, Nat.add_zero]
    | some handle =>
      have herase := KeyedList.countP_erase (fun e => p e.2) hfind
      dsimp only at herase
      simp only [call, UnloadModule, lost, hfind]
      split_ifs
      · simp only [List.countP_append, List.countP_singleton, List.countP_nil]
        omega
      · rw [List.countP_nil, Nat.add_zero]

theorem lost_eq_nil_iff (m : ModuleLoader Handle) (c : ModuleCall Handle) :
    m.lost c = [] ↔ m.KeepsBalance c := by
  cases c with
  | LoadModule files name =>
    simp only [lost, KeepsBalance]
    cases hopens : files.opens with
    | none => exact iff_of_true rfl fun h => absurd rfl h
    | some handle =>
      cases hread : files.readConfig with
      | error e =>
        refine iff_of_false (List.cons_ne_nil handle []) fun h => ?_
        cases (h (Option.some_ne_none handle)).1
      | ok u =>
        rw [Option.toList_eq_nil_iff]
        exact ⟨fun h _ => ⟨rfl, h⟩, fun h => (h (Option.some_ne_none handle)).2⟩
  | UnloadModule filename result => exact iff_of_true rfl trivial

theorem balanced_call_iff {m : ModuleLoader Handle} (c : ModuleCall Handle) (h : m.Balanced) :
    (m.call c).2.Balanced ↔ m.KeepsBalance c := by
  have haccount := countP_call (fun _ => true) m c
  simp only [List.countP_true] at haccount
  rw [← lost_eq_nil_iff, ← List.length_eq_zero_iff, Balanced]
  rw [Balanced] at h
  omega

theorem failsClean_of_keepsBalance {m : ModuleLoader Handle} {c : ModuleCall Handle}
    (h : m.KeepsBalance c) : m.FailsClean c := by
  cases c with
  | LoadModule files name =>
    intro hfalse
    cases hopens : files.opens with
    | none => simp only [LoadModule, hopens, and_self]
    | some handle =>
      have hread := (h (hopens ▸ Option.some_ne_none handle)).1
      simp only [LoadModule, hopens, hread] at hfalse
      cases hfalse
  | UnloadModule filename result => trivial

theorem run_exists (m : ModuleLoader Handle) (calls : List (ModuleCall Handle)) :
    ∃ m', EventMachine.run step m calls = some m' := by
  induction calls generalizing m with
  | nil => exact ⟨m, rfl⟩
  | cons c calls ih => exact ih (m.call c).2

/-- A library that is open without an entry stays so: the balance holds in every state of a run,
and every failing `LoadModule` cleans up, exactly when no call loses a handle. -/
theorem handles_balanced_iff (calls : List (ModuleCall Handle)) :
    (EventMachine.States step Balanced init calls ∧ EventMachine.Steps step FailsClean init calls) ↔
      EventMachine.Steps step KeepsBalance init calls := by
  have hinit : (init : ModuleLoader Handle).Balanced := rfl
  obtain ⟨m', hm'⟩ := run_exists init calls
  have hiff := EventMachine.states_iff_steps (I := fun _ => True) (P := Balanced)
    (G := KeepsBalance) (fun _ _ _ _ _ => trivial)
    (fun m c t _ hm ht => Option.some.inj ht ▸ balanced_call_iff c hm) trivial hinit hm'
  constructor
  · intro h
    exact hiff.mp h.1
  · intro h
    exact ⟨hiff.mpr h, EventMachine.steps_imp (fun _ _ => failsClean_of_keepsBalance) h⟩

/-- Then each library is open as often as it has entries. -/
theorem countP_opened {calls : List (ModuleCall Handle)} {m : ModuleLoader Handle}
    (hG : EventMachine.Steps step KeepsBalance init calls)
    (h : EventMachine.run step init calls = some m) (p : Handle → Bool) :
    m.opened.countP p = m.closed.countP p + m.handles_.countP fun e => p e.2 := by
  refine EventMachine.run_invariant_of_steps (G := KeepsBalance) (I := fun m =>
    m.opened.countP p = m.closed.countP p + m.handles_.countP fun e => p e.2) ?_ rfl hG h
  intro m c t hm hkeeps ht
  obtain rfl := Option.some.inj ht
  have haccount := countP_call p m c
  rw [(lost_eq_nil_iff m c).mpr hkeeps, List.countP_nil] at haccount
  omega

/-- The info file cannot be parsed, after the library was opened. -/
theorem handles_not_balanced :
    ¬ ∀ calls : List (ModuleCall ℕ),
      EventMachine.States step Balanced init calls ∧
        EventMachine.Steps step FailsClean init calls := by
  intro h
  obtain ⟨-, hbalanced⟩ := (h [.LoadModule ⟨.ok true, some 1, .ok true,
    .error ⟨bytes "parse error"⟩⟩ (bytes "camera")]).1
  have hone := hbalanced _ rfl
  cases hone

end ModuleLoader

end OpenAPT
