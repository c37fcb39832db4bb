import OpenAPT.DeviceManager
import OpenAPT.DriverTasks

/-! `DeviceManager::getSimpleTask`: a device is looked up by its name in all lists, cast to the
class of the type that was asked for, and asked for the task. -/
namespace OpenAPT

open EventMachine

/-- The device classes with their dynamic type, and the virtual `getSimpleTask`. -/
structure TaskClasses (Device SimpleTask : Type*) extends DeviceClasses Device where
  typeOf : Device → DeviceType
  getSimpleTask : Device → Bytes → Json → Except StdException (Option SimpleTask)

namespace DeviceManager

variable {Device SimpleTask : Type*}

/-- A constructor makes a device of its class with the name it is given. Of the classes only the
focuser throws, where it prints the parameters. -/
structure Constructs (cls : TaskClasses Device SimpleTask) : Prop where
  getName : ∀ type name, cls.getName (cls.make_shared type name) = name
  typeOf : ∀ type name, cls.typeOf (cls.make_shared type name) = type
  throws : ∀ device task_name params,
    (∃ e, cls.getSimpleTask device task_name params = .error e) ↔
      cls.typeOf device = .Focuser ∧ FocuserTasks.Unprintable task_name params

section Code

variable (cls : TaskClasses Device SimpleTask)

/-- `std::dynamic_pointer_cast` to the class of the type. -/
def dynamic_pointer_cast (type : DeviceType) (device : DeviceRef Device) :
    Option (DeviceRef Device) :=
  if cls.typeOf device.device = type then some device else none

/-- `std::dynamic_pointer_cast<...>(device)->getSimpleTask(task_name, params)`; the outer `none` is
a null pointer that is dereferenced. -/
def castSimpleTask (type : DeviceType) (device : DeviceRef Device) (task_name : Bytes)
    (params : Json) : Option (Except StdException (Option SimpleTask)) :=
  (dynamic_pointer_cast cls type device).map fun device =>
    cls.getSimpleTask device.device task_name params

def getSimpleTask (m : DeviceManager Device) (type : DeviceType)
    (device_type device_name task_name : Bytes) (params : Json) :
    Option (Except StdException (Option SimpleTask)) :=
  match findDeviceByName cls.toDeviceClasses m device_name with
  | none => some (.ok none)
  | some device =>
    match type with
    | .Camera =>
      if device_type = bytes "INDI" then castSimpleTask cls .Camera device task_name params
      else some (.ok none)
    | .Telescope =>
      if device_type = bytes "INDI" then castSimpleTask cls .Telescope device task_name params
      else some (.ok none)
    | .Focuser =>
      if device_type = bytes "INDI" then castSimpleTask cls .Focuser device task_name params
      else some (.ok none)
    | .FilterWheel =>
      if device_type = bytes "INDI" then castSimpleTask cls .FilterWheel device task_name params
      else some (.ok none)
    -- the tasks of solvers and guiders are commented out
    | .Solver | .Guider | .NumDeviceTypes => some (.ok none)

/-- A device of the type has the name. -/
def Registered (m : DeviceManager Device) (type : DeviceType) (name : Bytes) : Prop :=
  ∃ i d, type.row = some i ∧ d ∈ m.present i ∧ cls.getName d.device = name

/-- The call returns, and without a device of the type and name it returns no task. -/
def Answers (m : DeviceManager Device) (type : DeviceType)
    (device_type device_name task_name : Bytes) (params : Json) : Prop :=
  ∃ task, getSimpleTask cls m type device_type device_name task_name params = some (.ok task) ∧
    (¬ Registered cls m type device_name → task = none)

/-- The types whose tasks come from the device. -/
def castsDevice : DeviceType → Bool
  | .Camera | .Telescope | .Focuser | .FilterWheel => true
  | .Solver | .Guider | .NumDeviceTypes => false

/-- The name belongs to a device of another type, and the device would be asked for the task. -/
def CastsOther (m : DeviceManager Device) (type : DeviceType) (device_type device_name : Bytes) :
    Prop :=
  castsDevice type = true ∧ device_type = bytes "INDI" ∧
    ∃ other, other ≠ type ∧ Registered cls m other device_name

/-- A focuser is asked for a task whose parameters it cannot print. -/
def AsksUnprintable (m : DeviceManager Device) (type : DeviceType)
    (device_type device_name task_name : Bytes) (params : Json) : Prop :=
  type = .Focuser ∧ device_type = bytes "INDI" ∧ Registered cls m .Focuser device_name ∧
    FocuserTasks.Unprintable task_name params

end Code

/-! ### The types of the devices -/

variable {cls : TaskClasses Device SimpleTask} {m m' : DeviceManager Device} {e : DeviceEvent}

/-- Each device is in the list of its type. -/
def InRows (cls : TaskClasses Device SimpleTask) (m : DeviceManager Device) : Prop :=
  ∀ i, ∀ d ∈ m.present i, (cls.typeOf d.device).row = some i

theorem InRows.sublist (hm : InRows cls m)
    (h : ∀ i, (m'.m_devices i).Sublist (m.m_devices i)) : InRows cls m' := by
  intro i d hd
  apply hm i d
  exact mem_present.mpr ((h i).subset (mem_present.mp hd))

theorem inRows_step (hcls : Constructs cls) (hm : InRows cls m)
    (h : step cls.toDeviceClasses m e = some m') : InRows cls m' := by
  rcases step_cases h with ⟨-, htable, -, -⟩ | ⟨type, i, name, -, hrow, -, rfl⟩ |
    ⟨type, i, name, -, -, rfl⟩ | ⟨name, -, rfl⟩ | ⟨-, rfl⟩
  · intro i d hd
    rw [present, htable] at hd
    exact hm i d hd
  · -- only the list that gets the new device is another one
    intro j d hd
    rw [mem_present] at hd
    dsimp only at hd
    by_cases hj : j = i
    · subst hj
      rw [Function.update_self, List.mem_append, List.mem_singleton] at hd
      rcases hd with hold | hnew
      · exact hm j d (mem_present.mpr hold)
      · rw [Option.some.inj hnew, hcls.typeOf]
        exact hrow
    · rw [Function.update_of_ne hj] at hd
      exact hm j d (mem_present.mpr hd)
  · exact hm.sublist (removeDevice_sublist i name)
  · exact hm.sublist fun i => List.filter_sublist
  · exact hm.sublist fun i => List.nil_sublist _

theorem row_injective {type other : DeviceType} {i : Fin 6} (htype : type.row = some i)
    (hother : other.row = some i) : type = other := by
  revert i
  cases type <;> cases other <;> decide

/-- Only the device that the lookup finds has the name, and its list is the one of its type. -/
theorem registered_iff_typeOf (hdistinct : DistinctNames cls.toDeviceClasses m)
    (hrows : InRows cls m) {type : DeviceType} {name : Bytes} {d : DeviceRef Device}
    (hfind : findDeviceByName cls.toDeviceClasses m name = some d) :
    Registered cls m type name ↔ cls.typeOf d.device = type := by
  constructor
  · rintro ⟨i, d', hrow, hmem, hname⟩
    -- names are distinct, so the device of the name is the one that is found
    have hfind' := findDeviceByName_of_mem hdistinct (mem_devices.mpr ⟨i, hmem⟩)
    rw [hname, hfind] at hfind'
    obtain rfl := Option.some.inj hfind'
    exact row_injective (hrows i d hmem) hrow
  · intro htype
    rw [findDeviceByName_eq] at hfind
    obtain ⟨i, hmem⟩ := mem_devices.mp (List.mem_of_find?_eq_some hfind)
    have hrow := hrows i d hmem
    rw [htype] at hrow
    exact ⟨i, d, hrow, hmem, by simpa using List.find?_some hfind⟩

theorem not_registered_of_find_none {name : Bytes} (type : DeviceType)
    (hfind : findDeviceByName cls.toDeviceClasses m name = none) :
    ¬ Registered cls m type name := by
  rintro ⟨i, d, -, hmem, hname⟩
  rw [findDeviceByName_eq, List.find?_eq_none] at hfind
  apply hfind d (mem_devices.mpr ⟨i, hmem⟩)
  exact decide_eq_true hname

theorem not_castsOther_of_find_none {type : DeviceType} {device_type name : Bytes}
    (hfind : findDeviceByName cls.toDeviceClasses m name = none) :
    ¬ CastsOther cls m type device_type name := by
  rintro ⟨-, -, other, -, hother⟩
  exact not_registered_of_find_none other hfind hother

/-- With a device that is found, the name belongs to another type if the device does. -/
theorem castsOther_iff (hdistinct : DistinctNames cls.toDeviceClasses m) (hrows : InRows cls m)
    {type : DeviceType} {device_type name : Bytes} {d : DeviceRef Device}
    (hfind : findDeviceByName cls.toDeviceClasses m name = some d) :
    CastsOther cls m type device_type name ↔
      castsDevice type = true ∧ device_type = bytes "INDI" ∧
        cls.typeOf d.device ≠ type := by
  refine and_congr_right fun _ => and_congr_right fun _ => ?_
  simp only [registered_iff_typeOf hdistinct hrows hfind]
  constructor
  · rintro ⟨other, hne, rfl⟩
    exact hne
  · intro hne
    exact ⟨_, hne, rfl⟩

/-- The four types whose tasks come from the device share one branch. -/
theorem getSimpleTask_of_find_some {type : DeviceType} {device_type device_name task_name : Bytes}
    {params : Json} {d : DeviceRef Device}
    (hfind : findDeviceByName cls.toDeviceClasses m device_name = some d) :
    getSimpleTask cls m type device_type device_name task_name params =
      if castsDevice type = true ∧ device_type = bytes "INDI" then
        castSimpleTask cls type d task_name params
      else some (.ok none) := by
  unfold getSimpleTask
  rw [hfind]
  cases type <;> simp [castsDevice]

/-- `getSimpleTask` returns, and with no task where there is no device for it, exactly unless the
name belongs to a device that is not of the type it is cast to, or to a focuser that cannot print the
parameters. -/
theorem answers_iff (hcls : Constructs cls) (h : Reachable (step cls.toDeviceClasses) init m)
    (type : DeviceType) (device_type device_name task_name : Bytes) (params : Json) :
    Answers cls m type device_type device_name task_name params ↔
      ¬ CastsOther cls m type device_type device_name ∧
        ¬ AsksUnprintable cls m type device_type device_name task_name params := by
  have hdistinct : DistinctNames cls.toDeviceClasses m := by
    refine reachable_invariant ?_ (fun s e t hs ht => distinctNames_step hcls.getName hs ht) h
    rw [DistinctNames, devices_init]
    exact List.nodup_nil
  have hrows : InRows cls m := by
    refine reachable_invariant ?_ (fun s e t hs ht => inRows_step hcls hs ht) h
    intro i d hd
    cases hd
  cases hfind : findDeviceByName cls.toDeviceClasses m device_name with
  | none =>
    refine iff_of_true ⟨none, ?_, fun _ => rfl⟩ ⟨not_castsOther_of_find_none hfind, ?_⟩
    · rw [getSimpleTask, hfind]
    · rintro ⟨-, -, hregistered, -⟩
      exact not_registered_of_find_none .Focuser hfind hregistered
  | some d =>
    rw [castsOther_iff hdistinct hrows hfind, Answers, getSimpleTask_of_find_some hfind,
      registered_iff_typeOf hdistinct hrows hfind, AsksUnprintable,
      registered_iff_typeOf hdistinct hrows hfind]
    by_cases hcast : castsDevice type = true ∧ device_type = bytes "INDI"
    · rw [if_pos hcast]
      by_cases htype : cls.typeOf d.device = type
      · -- the cast goes through, and the device gives its task or throws
        rw [castSimpleTask, dynamic_pointer_cast, if_pos htype, Option.map_some]
        have hasks : (type = .Focuser ∧ device_type = bytes "INDI" ∧
            cls.typeOf d.device = .Focuser ∧ FocuserTasks.Unprintable task_name params) ↔
              ∃ e, cls.getSimpleTask d.device task_name params = .error e := by
          rw [hcls.throws, htype]
          exact ⟨fun h => h.2.2, fun h => ⟨h.1, hcast.2, h⟩⟩
        rw [hasks]
        cases hvirtual : cls.getSimpleTask d.device task_name params with
        | error e =>
          refine iff_of_false ?_ fun hneither => hneither.2 ⟨e, rfl⟩
          rintro ⟨task, htask, -⟩
          cases htask
        | ok task =>
          refine iff_of_true ⟨task, rfl, fun hnot => absurd htype hnot⟩
            ⟨fun hother => hother.2.2 htype, ?_⟩
          rintro ⟨e, he⟩
          cases he
      · -- the cast gives a null pointer
        refine iff_of_false ?_ fun hneither => hneither.1 ⟨hcast.1, hcast.2, htype⟩
        rintro ⟨task, htask, -⟩
        rw [castSimpleTask, dynamic_pointer_cast, if_neg htype] at htask
        cases htask
    · rw [if_neg hcast]
      refine iff_of_true ⟨none, rfl, fun _ => rfl⟩ ⟨?_, ?_⟩
      · rintro ⟨hcasts, hindi, -⟩
        exact hcast ⟨hcasts, hindi⟩
      · rintro ⟨rfl, hindi, -⟩
        exact hcast ⟨rfl, hindi⟩

/-- Devices that are their type and their name, of which the focusers have the tasks of the driver
and the others have none. -/
def plainTaskClasses : TaskClasses (DeviceType × Bytes) (Task FocuserTasks.FocuserDriver) where
  toDeviceClasses := plainClasses
  typeOf := Prod.fst
  getSimpleTask device task_name params :=
    if device.1 = .Focuser then
      FocuserTasks.getSimpleTask (plainDriverEnvironment _) task_name params
    else .ok none

theorem constructs_plain : Constructs plainTaskClasses where
  getName _ _ := rfl
  typeOf _ _ := rfl
  throws device task_name params := by
    have hvirtual : plainTaskClasses.getSimpleTask device task_name params =
        if device.1 = .Focuser then
          FocuserTasks.getSimpleTask (plainDriverEnvironment _) task_name params
        else .ok none := rfl
    rw [hvirtual]
    split_ifs with hfocuser
    · rw [FocuserTasks.getSimpleTask_error_iff]
      exact ⟨fun h => ⟨hfocuser, h⟩, fun h => h.2⟩
    · exact iff_of_false (fun ⟨e, he⟩ => nomatch he) fun h => hfocuser h.1

/-- With one focuser, the manager answers requests for focusers of its name. -/
theorem answers_iff_focuser : ∃ m, run (step plainClasses) init
      [.addDevice .Focuser (bytes "a")] = some m ∧
    (Answers plainTaskClasses m .Focuser (bytes "INDI") (bytes "a") (bytes "AbortMove") .null ↔
      ¬ CastsOther plainTaskClasses m .Focuser (bytes "INDI") (bytes "a") ∧
        ¬ AsksUnprintable plainTaskClasses m .Focuser (bytes "INDI") (bytes "a")
          (bytes "AbortMove") .null) := by
  have hrun : (run (step plainClasses) init [.addDevice .Focuser (bytes "a")]).map
      (fun m => m.devices.length) = some 1 := by decide
  obtain ⟨m, hm, -⟩ := Option.map_eq_some_iff.mp hrun
  exact ⟨m, hm, answers_iff constructs_plain ⟨_, hm⟩ _ _ _ _ _⟩

/-- A camera that is asked for a telescope's task. -/
theorem camera_cast_to_telescope :
    ∃ m, Reachable (step plainClasses) init m ∧
      getSimpleTask plainTaskClasses m .Telescope (bytes "INDI") (bytes "a") (bytes "Park") .null =
        none ∧
      ¬ Answers plainTaskClasses m .Telescope (bytes "INDI") (bytes "a") (bytes "Park") .null := by
  have hrun : (run (step plainClasses) init [.addDevice .Camera (bytes "a")]).map (fun m =>
      getSimpleTask plainTaskClasses m .Telescope (bytes "INDI") (bytes "a") (bytes "Park") .null) =
        some none := rfl
  obtain ⟨m, hm, hnull⟩ := Option.map_eq_some_iff.mp hrun
  refine ⟨m, ⟨_, hm⟩, hnull, ?_⟩
  rintro ⟨task, htask, -⟩
  rw [hnull] at htask
  cases htask

end DeviceManager

end OpenAPT
