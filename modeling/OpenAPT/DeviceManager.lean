import OpenAPT.Json
import OpenAPT.Lib.EventMachine
import Mathlib.Data.Fin.Basic
import Mathlib.Data.List.Pairwise
import Mathlib.Data.List.ReduceOption
import Mathlib.Data.List.FinRange
import Mathlib.Data.List.Flatten

/-! The device registry: a table of six lists of shared pointers, null pointers among them. The
queries look for a name in one list or in all of them, and the mutators keep names apart. -/
namespace OpenAPT

inductive DeviceType
  | Camera
  | Telescope
  | Focuser
  | FilterWheel
  | Solver
  | Guider
  | NumDeviceTypes
  deriving DecidableEq

/-- The list of `m_devices` at `static_cast<int>(type)`. The last enumerator only counts the types:
its place is behind the end of the array. -/
def DeviceType.row : DeviceType → Option (Fin 6)
  | .Camera => some 0
  | .Telescope => some 1
  | .Focuser => some 2
  | .FilterWheel => some 3
  | .Solver => some 4
  | .Guider => some 5
  | .NumDeviceTypes => none

/-- The device classes: what a constructor makes of a name, and `getName`. -/
structure DeviceClasses (Device : Type*) where
  make_shared : DeviceType → Bytes → Device
  getName : Device → Bytes

/-- An object behind a `std::shared_ptr<Device>`; the objects are numbered as they are made. -/
structure DeviceRef (Device : Type*) where
  object : ℕ
  device : Device
  deriving DecidableEq

/-- The table, with all objects that were put into it and the calls of `disconnect()` so far. -/
structure DeviceManager (Device : Type*) where
  m_devices : Fin 6 → List (Option (DeviceRef Device))
  added : List (DeviceRef Device)
  disconnected : List (DeviceRef Device)
  destroyed : Bool

/-- What happens to a manager: the calls that change it, a client that disconnects the device that
`getDevice` gives it, and the destruction. -/
inductive DeviceEvent
  | addDevice (type : DeviceType) (name : Bytes)
  | removeDevice (type : DeviceType) (name : Bytes)
  | removeDevicesByName (name : Bytes)
  | disconnect (type : DeviceType) (name : Bytes)
  | destroy

namespace DeviceManager
open EventMachine

variable {Device : Type*}

/-- The constructor leaves a null pointer in each list. -/
def init : DeviceManager Device := ⟨fun _ => [none], [], [], false⟩

/-- The devices of a list. -/
def present (m : DeviceManager Device) (i : Fin 6) : List (DeviceRef Device) :=
  (m.m_devices i).reduceOption

/-- All registered devices. -/
def devices (m : DeviceManager Device) : List (DeviceRef Device) :=
  (List.finRange 6).flatMap m.present

variable (cls : DeviceClasses Device)

/-- `device && device->getName() == name`. -/
def isNamed (name : Bytes) (slot : Option (DeviceRef Device)) : Bool :=
  slot.any fun d => cls.getName d.device = name

def getDeviceList (m : DeviceManager Device) (type : DeviceType) : Option (List Bytes) :=
  type.row.map fun i => (m.present i).map fun d => cls.getName d.device

/-- `none` is the -1 of the source. -/
def findDevice (m : DeviceManager Device) (i : Fin 6) (name : Bytes) : Option ℕ :=
  (m.m_devices i).findIdx? (isNamed cls name)

def findDeviceByName (m : DeviceManager Device) (name : Bytes) : Option (DeviceRef Device) :=
  (List.finRange 6).findSome? fun i => ((m.m_devices i).find? (isNamed cls name)).join

def getDevice (m : DeviceManager Device) (type : DeviceType) (name : Bytes) :
    Option (Option (DeviceRef Device)) :=
  type.row.map fun i =>
    match findDevice cls m i name with
    | some index => ((m.m_devices i)[index]?).join
    | none => none

/-- The loop that appends a number to a name until no device of the list has it. The list is shorter
than the number of turns. -/
def unusedName (m : DeviceManager Device) (i : Fin 6) (name : Bytes) : ℕ → ℕ → Bytes → Bytes
  | 0, _, newName => newName
  | turns + 1, index, newName =>
    if (findDevice cls m i newName).isSome then
      unusedName m i name turns (index + 1) (name ++ bytes "-" ++ bytes (toString index))
    else newName

def addDevice (m : DeviceManager Device) (type : DeviceType) (name : Bytes) :
    Except StdException (DeviceManager Device) :=
  match type.row with
  | none => .error ⟨bytes "Invalid device type"⟩
  | some i =>
    if (findDeviceByName cls m name).isSome then .ok m
    else
      let newName := unusedName cls m i name ((m.m_devices i).length + 1) 1 name
      match type with
      | .Camera | .Telescope | .Focuser | .FilterWheel =>
        let device : DeviceRef Device := ⟨m.added.length, cls.make_shared type newName⟩
        .ok { m with
          m_devices := Function.update m.m_devices i (m.m_devices i ++ [some device])
          added := m.added ++ [device] }
      -- the classes of these types do not exist yet
      | _ => .ok m

/-- The first device of the name is disconnected and erased. -/
def removeDevice (m : DeviceManager Device) (type : DeviceType) (name : Bytes) :
    Option (DeviceManager Device) :=
  type.row.map fun i =>
    { m with
      m_devices := Function.update m.m_devices i ((m.m_devices i).eraseP (isNamed cls name))
      disconnected := m.disconnected ++ ((m.m_devices i).find? (isNamed cls name)).join.toList }

def removeDevicesByName (m : DeviceManager Device) (name : Bytes) : DeviceManager Device :=
  { m with m_devices := fun i => (m.m_devices i).filter fun slot => !isNamed cls name slot }

/-- The destructor. -/
def destroy (m : DeviceManager Device) : DeviceManager Device :=
  { m with
    m_devices := fun _ => []
    disconnected := m.disconnected ++ m.devices
    destroyed := true }

/-- One event. An index behind the array is undefined behaviour, and so is a call after the
destruction. -/
def step (m : DeviceManager Device) (e : DeviceEvent) : Option (DeviceManager Device) :=
  if m.destroyed then none
  else
    match e with
    | .addDevice type name =>
      match addDevice cls m type name with
      | .ok m' => some m'
      | .error _ => some m
    | .removeDevice type name => removeDevice cls m type name
    | .removeDevicesByName name => some (removeDevicesByName cls m name)
    | .disconnect type name =>
      (getDevice cls m type name).map fun device =>
        { m with disconnected := m.disconnected ++ device.toList }
    | .destroy => some m.destroy

/-! ### The queries -/

section Queries

variable {cls} {m : DeviceManager Device} {i : Fin 6} {name : Bytes} {d : DeviceRef Device}

theorem mem_present : d ∈ m.present i ↔ some d ∈ m.m_devices i := List.reduceOption_mem_iff

theorem mem_devices : d ∈ m.devices ↔ ∃ i, d ∈ m.present i := by
  simp only [devices, List.mem_flatMap, List.mem_finRange, true_and]

/-- A search that skips null pointers. -/
theorem join_find? (slots : List (Option (DeviceRef Device))) :
    (slots.find? (isNamed cls name)).join =
      slots.reduceOption.find? fun d => cls.getName d.device = name := by
  induction slots with
  | nil => rfl
  | cons slot slots ih =>
    cases slot with
    | none =>
      have hnone : ¬ isNamed cls name (none : Option (DeviceRef Device)) = true :=
        Bool.false_ne_true
      rw [List.find?_cons_of_neg hnone, List.reduceOption_cons_of_none, ih]
    | some d =>
      rw [List.reduceOption_cons_of_some, List.find?_cons, List.find?_cons]
      by_cases hd : cls.getName d.device = name
      · simp only [isNamed, Option.any_some, hd, decide_true, Option.join_some]
      · simp only [isNamed, Option.any_some, hd, decide_false]
        exact ih

theorem findDeviceByName_eq :
    findDeviceByName cls m name = m.devices.find? fun d => cls.getName d.device = name := by
  simp only [findDeviceByName, join_find?, devices, List.find?_flatMap, present]

theorem getDevice_eq (type : DeviceType) : getDevice cls m type name =
    type.row.map fun i => (m.present i).find? fun d => cls.getName d.device = name := by
  unfold getDevice
  congr 1
  funext i
  rw [present, ← join_find?, List.find?_eq_bind_findIdx?_getElem?, findDevice]
  cases (m.m_devices i).findIdx? (isNamed cls name) <;> rfl

theorem findDevice_eq_none (h : findDeviceByName cls m name = none) (i : Fin 6) :
    findDevice cls m i name = none := by
  rw [findDeviceByName_eq, List.find?_eq_none] at h
  rw [findDevice, List.findIdx?_eq_none_iff]
  intro slot hslot
  cases slot with
  | none => rfl
  | some d => simpa [isNamed] using h d (mem_devices.mpr ⟨i, mem_present.mpr hslot⟩)

/-- A name that no device has is not changed. -/
theorem unusedName_eq (h : findDeviceByName cls m name = none) (i : Fin 6) (turns index : ℕ) :
    unusedName cls m i name turns index name = name := by
  cases turns with
  | zero => rfl
  | succ turns => rw [unusedName, findDevice_eq_none h i, Option.isSome_none, if_neg (by decide)]

/-- No two registered devices have the same name. -/
def DistinctNames (cls : DeviceClasses Device) (m : DeviceManager Device) : Prop :=
  (m.devices.map fun d => cls.getName d.device).Nodup

/-- The three queries agree: `getDevice` finds a device of the type if the list of the type has the
name, and it is the device that `findDeviceByName` finds. -/
def QueriesAgree (cls : DeviceClasses Device) (m : DeviceManager Device) (type : DeviceType)
    (name : Bytes) : Prop :=
  ∃ names device, getDeviceList cls m type = some names ∧
    getDevice cls m type name = some device ∧ (device ≠ none ↔ name ∈ names) ∧
    (device ≠ none → findDeviceByName cls m name = device)

theorem findDeviceByName_of_mem (h : DistinctNames cls m) (hd : d ∈ m.devices) :
    findDeviceByName cls m (cls.getName d.device) = some d := by
  rw [findDeviceByName_eq]
  have hsome : (m.devices.find? fun e => cls.getName e.device = cls.getName d.device).isSome := by
    rw [List.find?_isSome]
    exact ⟨d, hd, decide_eq_true rfl⟩
  obtain ⟨e, he⟩ := Option.isSome_iff_exists.mp hsome
  have hname : cls.getName e.device = cls.getName d.device := by
    simpa using List.find?_some he
  rw [he, List.inj_on_of_nodup_map h (List.mem_of_find?_eq_some he) hd hname]

theorem queriesAgree_of_distinctNames (h : DistinctNames cls m) {type : DeviceType}
    (htype : type ≠ .NumDeviceTypes) (name : Bytes) : QueriesAgree cls m type name := by
  obtain ⟨i, hi⟩ : ∃ i, type.row = some i := by
    cases type <;> first | exact ⟨_, rfl⟩ | exact absurd rfl htype
  refine ⟨(m.present i).map fun d => cls.getName d.device,
    (m.present i).find? fun d => cls.getName d.device = name, ?_, ?_, ?_, ?_⟩
  · rw [getDeviceList, hi, Option.map_some]
  · rw [getDevice_eq, hi, Option.map_some]
  · rw [Option.ne_none_iff_isSome, List.find?_isSome, List.mem_map]
    simp only [decide_eq_true_eq]
  · intro hdevice
    obtain ⟨d, hd⟩ := Option.ne_none_iff_exists'.mp hdevice
    have hname : cls.getName d.device = name := by simpa using List.find?_some hd
    have hmem : d ∈ m.devices := mem_devices.mpr ⟨i, List.mem_of_find?_eq_some hd⟩
    rw [hd, ← hname, findDeviceByName_of_mem h hmem]

end Queries

/-! ### The steps -/

section Steps

variable {cls} {m m' : DeviceManager Device} {e : DeviceEvent}

/-- `addDevice` leaves everything as it is, or it appends a device with a new name. -/
theorem addDevice_cases {type : DeviceType} {name : Bytes}
    (h : addDevice cls m type name = .ok m') :
    m' = m ∨ ∃ i, type.row = some i ∧ findDeviceByName cls m name = none ∧
      m' = { m with
        m_devices := Function.update m.m_devices i
          (m.m_devices i ++ [some ⟨m.added.length, cls.make_shared type name⟩])
        added := m.added ++ [⟨m.added.length, cls.make_shared type name⟩] } := by
  unfold addDevice at h
  cases hrow : type.row with
  | none => rw [hrow] at h; cases h
  | some i =>
    rw [hrow] at h
    by_cases hfind : (findDeviceByName cls m name).isSome
    · simp only [hfind, ↓reduceIte, Except.ok.injEq] at h
      exact Or.inl h.symm
    · have hnone : findDeviceByName cls m name = none := Option.not_isSome_iff_eq_none.mp hfind
      simp only [hfind, Bool.false_eq_true, ↓reduceIte, unusedName_eq hnone] at h
      split at h
      iterate 4
        exact Or.inr ⟨i, rfl, hnone, (Except.ok.inj h).symm⟩
      exact Or.inl (Except.ok.inj h).symm

/-- What a step can do to the table. -/
theorem step_cases (h : step cls m e = some m') :
    ((∀ name, e ≠ .removeDevicesByName name) ∧ m'.m_devices = m.m_devices ∧
      m'.added = m.added ∧ m.disconnected ⊆ m'.disconnected) ∨
    (∃ type i name, e = .addDevice type name ∧ type.row = some i ∧
      findDeviceByName cls m name = none ∧
      m' = { m with
        m_devices := Function.update m.m_devices i
          (m.m_devices i ++ [some ⟨m.added.length, cls.make_shared type name⟩])
        added := m.added ++ [⟨m.added.length, cls.make_shared type name⟩] }) ∨
    (∃ type i name, e = .removeDevice type name ∧ type.row = some i ∧
      m' = { m with
        m_devices := Function.update m.m_devices i ((m.m_devices i).eraseP (isNamed cls name))
        disconnected :=
          m.disconnected ++ ((m.m_devices i).find? (isNamed cls name)).join.toList }) ∨
    (∃ name, e = .removeDevicesByName name ∧ m' = removeDevicesByName cls m name) ∨
    (e = .destroy ∧ m' = m.destroy) := by
  simp only [step] at h
  split_ifs at h
  cases e with
  | addDevice type name =>
    cases hadd : addDevice cls m type name with
    | error error =>
      simp only [hadd, Option.some.injEq] at h
      obtain rfl := h
      exact Or.inl ⟨fun _ => nofun, rfl, rfl, List.Subset.refl _⟩
    | ok n =>
      simp only [hadd, Option.some.injEq] at h
      obtain rfl := h
      rcases addDevice_cases hadd with rfl | ⟨i, hi, hnone, hn⟩
      · exact Or.inl ⟨fun _ => nofun, rfl, rfl, List.Subset.refl _⟩
      · exact Or.inr (Or.inl ⟨type, i, name, rfl, hi, hnone, hn⟩)
  | removeDevice type name =>
    obtain ⟨i, hi, rfl⟩ := Option.map_eq_some_iff.mp h
    exact Or.inr (Or.inr (Or.inl ⟨type, i, name, rfl, hi, rfl⟩))
  | removeDevicesByName name =>
    exact Or.inr (Or.inr (Or.inr (Or.inl ⟨name, rfl, (Option.some.inj h).symm⟩)))
  | disconnect type name =>
    obtain ⟨device, -, rfl⟩ := Option.map_eq_some_iff.mp h
    exact Or.inl ⟨fun _ => nofun, rfl, rfl, List.subset_append_left _ _⟩
  | destroy => exact Or.inr (Or.inr (Or.inr (Or.inr ⟨rfl, (Option.some.inj h).symm⟩)))

end Steps

/-! ### Names -/

section Names

variable {cls} {m m' : DeviceManager Device} {e : DeviceEvent}

/-- An element appended to one of the lists is one more element of all of them. -/
theorem flatMap_update_perm {ι α : Type*} [DecidableEq ι] {is : List ι} (his : is.Nodup)
    (f : ι → List α) {i : ι} (hi : i ∈ is) (a : α) :
    (is.flatMap (Function.update f i (f i ++ [a]))).Perm (a :: is.flatMap f) := by
  induction is with
  | nil => cases hi
  | cons j is ih =>
    obtain ⟨hj, his⟩ := List.nodup_cons.mp his
    rw [List.flatMap_cons, List.flatMap_cons]
    by_cases hij : i = j
    · -- the other lists are as before
      subst hij
      have hrest : is.flatMap (Function.update f i (f i ++ [a])) = is.flatMap f := by
        refine List.flatMap_congr fun k hk => Function.update_of_ne ?_ _ _
        rintro rfl
        exact hj hk
      rw [Function.update_self, hrest, List.append_assoc]
      exact List.perm_middle
    · have hmem : i ∈ is := (List.mem_cons.mp hi).resolve_left hij
      rw [Function.update_of_ne (Ne.symm hij)]
      exact ((ih his hmem).append_left (f j)).trans List.perm_middle

theorem devices_congr (h : m'.m_devices = m.m_devices) : m'.devices = m.devices := by
  have hpresent : m'.present = m.present := by
    funext i
    rw [present, present, h]
  rw [devices, devices, hpresent]

theorem devices_add (m : DeviceManager Device) (i : Fin 6) (d : DeviceRef Device)
    (added : List (DeviceRef Device)) :
    ({ m with
        m_devices := Function.update m.m_devices i (m.m_devices i ++ [some d])
        added := added } : DeviceManager Device).devices.Perm (d :: m.devices) := by
  have hpresent : (fun j => (Function.update m.m_devices i (m.m_devices i ++ [some d]) j).reduceOption)
      = Function.update m.present i (m.present i ++ [d]) := by
    funext j
    by_cases hj : j = i
    · subst hj
      rw [Function.update_self, Function.update_self, List.reduceOption_append]
      rfl
    · rw [Function.update_of_ne hj, Function.update_of_ne hj]
      rfl
  have hperm := flatMap_update_perm (List.nodup_finRange 6) m.present (List.mem_finRange i) d
  rwa [← hpresent] at hperm

theorem devices_sublist (h : ∀ i, (m'.m_devices i).Sublist (m.m_devices i)) :
    m'.devices.Sublist m.devices :=
  List.Sublist.flatMap_right _ fun i _ => (h i).filterMap _

theorem DistinctNames.sublist (hm : DistinctNames cls m)
    (h : ∀ i, (m'.m_devices i).Sublist (m.m_devices i)) : DistinctNames cls m' :=
  ((devices_sublist h).map _).nodup hm

theorem removeDevice_sublist (i : Fin 6) (name : Bytes) (j : Fin 6) :
    (Function.update m.m_devices i ((m.m_devices i).eraseP (isNamed cls name)) j).Sublist
      (m.m_devices j) := by
  by_cases hj : j = i
  · subst hj
    rw [Function.update_self]
    exact List.eraseP_sublist
  · rw [Function.update_of_ne hj]

theorem distinctNames_step (hcls : ∀ type name, cls.getName (cls.make_shared type name) = name)
    (hm : DistinctNames cls m) (h : step cls m e = some m') : DistinctNames cls m' := by
  rcases step_cases h with ⟨-, htable, -, -⟩ | ⟨type, i, name, -, -, hnone, rfl⟩ |
    ⟨type, i, name, -, -, rfl⟩ | ⟨name, -, rfl⟩ | ⟨-, rfl⟩
  · rwa [DistinctNames, devices_congr htable]
  · -- nobody has the name of the new device
    rw [DistinctNames, ((devices_add m i _ _).map _).nodup_iff, List.map_cons, List.nodup_cons]
    refine ⟨fun hmem => ?_, hm⟩
    obtain ⟨d, hd, hname⟩ := List.mem_map.mp hmem
    rw [hcls] at hname
    rw [findDeviceByName_eq, List.find?_eq_none] at hnone
    exact hnone d hd (decide_eq_true hname)
  · exact hm.sublist (removeDevice_sublist i name)
  · exact hm.sublist fun i => List.filter_sublist
  · exact hm.sublist fun i => List.nil_sublist _

end Names

theorem devices_init : (init : DeviceManager Device).devices = [] := rfl

/-- In every reachable state no two devices have the same name, and the queries agree for every
device type and every name. -/
theorem queries_agree (cls : DeviceClasses Device)
    (hcls : ∀ type name, cls.getName (cls.make_shared type name) = name)
    {m : DeviceManager Device} (h : Reachable (step cls) init m) :
    DistinctNames cls m ∧
      ∀ type name, type ≠ DeviceType.NumDeviceTypes → QueriesAgree cls m type name := by
  have hinit : DistinctNames cls init := by
    rw [DistinctNames, devices_init]
    exact List.nodup_nil
  have hdistinct : DistinctNames cls m :=
    reachable_invariant hinit (fun s e t hs ht => distinctNames_step hcls hs ht) h
  exact ⟨hdistinct, fun type name htype => queriesAgree_of_distinctNames hdistinct htype name⟩

/-- Devices that are their type and their name. -/
def plainClasses : DeviceClasses (DeviceType × Bytes) := ⟨Prod.mk, Prod.snd⟩

/-- A camera, and a focuser that does not get its name. -/
theorem queries_agree_camera :
    ∃ m : DeviceManager (DeviceType × Bytes), run (step plainClasses) init
        [.addDevice .Camera (bytes "a"), .addDevice .Focuser (bytes "a")] = some m ∧
      m.devices.length = 1 ∧ DistinctNames plainClasses m ∧
      ∀ type name, type ≠ DeviceType.NumDeviceTypes → QueriesAgree plainClasses m type name := by
  have hrun : (run (step plainClasses) init
      [.addDevice .Camera (bytes "a"), .addDevice .Focuser (bytes "a")]).map
        (fun m => m.devices.length) = some 1 := by decide
  obtain ⟨m, hm, hlength⟩ := Option.map_eq_some_iff.mp hrun
  exact ⟨m, hm, hlength, queries_agree plainClasses (fun _ _ => rfl) ⟨_, hm⟩⟩

/-! ### Releasing the hardware -/

/-- Every device that was ever registered still is, or `disconnect()` was called on it. -/
def Released (m : DeviceManager Device) : Prop :=
  ∀ d ∈ m.added, d ∈ m.devices ∨ d ∈ m.disconnected

/-- Before `removeDevicesByName` the devices of that name have been disconnected by a client. -/
def DisconnectsFirst (cls : DeviceClasses Device) (m : DeviceManager Device) : DeviceEvent → Prop
  | .removeDevicesByName name =>
    ∀ d ∈ m.devices, cls.getName d.device = name → d ∈ m.disconnected
  | _ => True

instance [DecidableEq Device] (m : DeviceManager Device) (e : DeviceEvent) :
    Decidable (DisconnectsFirst cls m e) :=
  match e with
  | .removeDevicesByName name =>
    inferInstanceAs (Decidable
      (∀ d ∈ m.devices, cls.getName d.device = name → d ∈ m.disconnected))
  | .addDevice _ _ | .removeDevice _ _ | .disconnect _ _ | .destroy => isTrue trivial

section Release

variable {cls} {m m' : DeviceManager Device} {e : DeviceEvent}

/-- Registered devices have been added. -/
def Recorded (m : DeviceManager Device) : Prop := ∀ d ∈ m.devices, d ∈ m.added

theorem recorded_step (hm : Recorded m) (h : step cls m e = some m') : Recorded m' := by
  rcases step_cases h with ⟨-, htable, hadded, -⟩ | ⟨type, i, name, -, -, -, rfl⟩ |
    ⟨type, i, name, -, -, rfl⟩ | ⟨name, -, rfl⟩ | ⟨-, rfl⟩
  · rw [Recorded, devices_congr htable, hadded]
    exact hm
  · intro d hd
    rcases List.mem_cons.mp ((devices_add m i _ _).mem_iff.mp hd) with rfl | hd
    · exact List.mem_append_right _ (List.mem_singleton_self _)
    · exact List.mem_append_left _ (hm d hd)
  · exact fun d hd => hm d ((devices_sublist (removeDevice_sublist i name)).subset hd)
  · exact fun d hd => hm d ((devices_sublist fun i => List.filter_sublist).subset hd)
  · exact fun d hd => hm d ((devices_sublist fun i => List.nil_sublist _).subset hd)

/-- What `eraseP` takes out of a list is what `find?` finds. -/
theorem mem_eraseP_or_find? {α : Type*} {p : α → Bool} {l : List α} {a : α} (h : a ∈ l) :
    a ∈ l.eraseP p ∨ l.find? p = some a := by
  induction l with
  | nil => cases h
  | cons b l ih =>
    by_cases hb : p b
    · rw [List.eraseP_cons_of_pos hb, List.find?_cons_of_pos hb]
      rcases List.mem_cons.mp h with rfl | h
      · exact Or.inr rfl
      · exact Or.inl h
    · rw [List.eraseP_cons_of_neg hb, List.find?_cons_of_neg hb]
      rcases List.mem_cons.mp h with rfl | h
      · exact Or.inl List.mem_cons_self
      · exact (ih h).imp_left (List.mem_cons_of_mem b)

/-- `removeDevice` disconnects what it erases. -/
theorem mem_removeDevice {i : Fin 6} {name : Bytes} {d : DeviceRef Device} (hd : d ∈ m.devices)
    {rest : List (DeviceRef Device)} :
    d ∈ ({ m with
        m_devices := Function.update m.m_devices i ((m.m_devices i).eraseP (isNamed cls name))
        disconnected := rest } : DeviceManager Device).devices ∨
      ((m.m_devices i).find? (isNamed cls name)).join = some d := by
  obtain ⟨j, hj⟩ := mem_devices.mp hd
  rw [mem_present] at hj
  by_cases hij : j = i
  · subst hij
    rcases mem_eraseP_or_find? (p := isNamed cls name) hj with hstays | hfound
    · refine Or.inl (mem_devices.mpr ⟨j, mem_present.mpr ?_⟩)
      simpa only [Function.update_self] using hstays
    · exact Or.inr (by rw [hfound, Option.join_some])
  · refine Or.inl (mem_devices.mpr ⟨j, mem_present.mpr ?_⟩)
    simpa only [Function.update_of_ne hij] using hj

theorem mem_removeDevicesByName {name : Bytes} {d : DeviceRef Device} :
    d ∈ (removeDevicesByName cls m name).devices ↔
      d ∈ m.devices ∧ cls.getName d.device ≠ name := by
  simp only [mem_devices, mem_present, removeDevicesByName, List.mem_filter, exists_and_right,
    isNamed, Option.any_some, Bool.not_eq_true', decide_eq_false_iff_not]

theorem released_step_iff (hrecorded : Recorded m) (hm : Released m)
    (h : step cls m e = some m') : Released m' ↔ DisconnectsFirst cls m e := by
  rcases step_cases h with ⟨hname, htable, hadded, hsubset⟩ | ⟨type, i, name, rfl, -, -, rfl⟩ |
    ⟨type, i, name, rfl, -, rfl⟩ | ⟨name, rfl, rfl⟩ | ⟨rfl, rfl⟩
  · have hother : DisconnectsFirst cls m e := by
      cases e with
      | removeDevicesByName name => exact absurd rfl (hname name)
      | _ => trivial
    refine iff_of_true (fun d hd => ?_) hother
    rw [devices_congr htable]
    rw [hadded] at hd
    exact (hm d hd).imp_right fun hd => hsubset hd
  · refine iff_of_true (fun d hd => ?_) trivial
    rcases List.mem_append.mp hd with hd | hd
    · refine (hm d hd).imp_left fun hd => ?_
      exact (devices_add m i _ _).mem_iff.mpr (List.mem_cons_of_mem _ hd)
    · refine Or.inl ((devices_add m i _ _).mem_iff.mpr ?_)
      rw [List.mem_singleton.mp hd]
      exact List.mem_cons_self
  · refine iff_of_true (fun d hd => ?_) trivial
    rcases hm d hd with hd | hd
    · refine (mem_removeDevice hd).imp_right fun hfound => ?_
      exact List.mem_append_right _ (Option.mem_toList.mpr hfound)
    · exact Or.inr (List.mem_append_left _ hd)
  · constructor
    · intro hm' d hd hd'
      refine (hm' d (hrecorded d hd)).resolve_left fun hmem => ?_
      exact (mem_removeDevicesByName.mp hmem).2 hd'
    · intro hfirst d hd
      rcases hm d hd with hd | hd
      · by_cases hd' : cls.getName d.device = name
        · exact Or.inr (hfirst d hd hd')
        · exact Or.inl (mem_removeDevicesByName.mpr ⟨hd, hd'⟩)
      · exact Or.inr hd
  · refine iff_of_true (fun d hd => Or.inr ?_) trivial
    rcases hm d hd with hd | hd
    · exact List.mem_append_right _ hd
    · exact List.mem_append_left _ hd

end Release

/-- A run leaves no device connected and without an owner exactly when `removeDevicesByName` is only
called for devices that clients have disconnected. -/
theorem released_iff (cls : DeviceClasses Device) (events : List DeviceEvent)
    {m : DeviceManager Device} (h : run (step cls) init events = some m) :
    States (step cls) Released init events ↔ Steps (step cls) (DisconnectsFirst cls) init events := by
  have hrecorded : Recorded (init : DeviceManager Device) := by
    rw [Recorded, devices_init]
    exact fun d hd => absurd hd List.not_mem_nil
  have hreleased : Released (init : DeviceManager Device) := fun d hd => absurd hd List.not_mem_nil
  exact states_iff_steps (fun s e t hs ht => recorded_step hs ht)
    (fun s e t hs hs' ht => released_step_iff hs hs' ht) hrecorded hreleased h

/-- A client disconnects its camera before the camera is removed by its name. -/
theorem released_camera :
    States (step plainClasses) Released init
      [.addDevice .Camera (bytes "a"), .disconnect .Camera (bytes "a"),
        .removeDevicesByName (bytes "a"), .destroy] := by
  have hrun : ((run (step plainClasses) init
      [.addDevice .Camera (bytes "a"), .disconnect .Camera (bytes "a"),
        .removeDevicesByName (bytes "a"), .destroy]).map fun m => m.devices.length) = some 0 := by
    decide
  obtain ⟨m, hm, -⟩ := Option.map_eq_some_iff.mp hrun
  exact (released_iff plainClasses _ hm).mpr (by decide)

/-- Removed by its name, a connected camera is dropped. -/
theorem removeDevicesByName_drops_camera :
    ∃ m : DeviceManager (DeviceType × Bytes), run (step plainClasses) init
        [.addDevice .Camera (bytes "a"), .removeDevicesByName (bytes "a")] = some m ∧
      m.added ≠ [] ∧ m.devices = [] ∧ m.disconnected = [] ∧ ¬ Released m := by
  have hrun : (run (step plainClasses) init
      [.addDevice .Camera (bytes "a"), .removeDevicesByName (bytes "a")]).map
        (fun m => (m.added, m.devices, m.disconnected)) =
      some ([⟨0, (.Camera, bytes "a")⟩], [], []) := rfl
  obtain ⟨m, hm, hfields⟩ := Option.map_eq_some_iff.mp hrun
  obtain ⟨hadded, hdevices, hdisconnected⟩ :
      m.added = [⟨0, (.Camera, bytes "a")⟩] ∧ m.devices = [] ∧ m.disconnected = [] := by
    simpa using hfields
  refine ⟨m, hm, ?_, hdevices, hdisconnected, fun hreleased => ?_⟩
  · rw [hadded]
    exact List.cons_ne_nil _ _
  · have hd := hreleased ⟨0, (.Camera, bytes "a")⟩ (hadded ▸ List.mem_singleton_self _)
    rw [hdevices, hdisconnected] at hd
    exact hd.elim List.not_mem_nil List.not_mem_nil

end DeviceManager

end OpenAPT
