import OpenAPT.ModuleRun

/-! `GetFunction` and `GetInstance`: what a module gives out, and for how long its library stays
open after that. -/
namespace OpenAPT

/-- The calls of a module loader. `CheckModuleExists` comes with the handle that `dlopen` returns,
`none` if it is null, and with the result of its `dlclose`. -/
inductive ModuleUse (Handle : Type*)
  | call (c : ModuleCall Handle)
  | CheckModuleExists (LOAD_LIBRARY : Option Handle) (result : Int32)

namespace ModuleLoader

variable {Handle : Type*}

/-- The result of `dlclose` is not looked at. -/
def CheckModuleExists (m : ModuleLoader Handle) (LOAD_LIBRARY : Option Handle) (result : Int32) :
    Bool × ModuleLoader Handle :=
  match LOAD_LIBRARY with
  | none => (false, m)
  | some handle =>
    (true, { m with opened := m.opened ++ [handle],
                    closed := m.closed ++ if result = 0 then [handle] else [] })

def HasModule (m : ModuleLoader Handle) (name : Bytes) : Bool :=
  (KeyedList.find? name m.handles_).isSome

def use (m : ModuleLoader Handle) : ModuleUse Handle → Bool × ModuleLoader Handle
  | .call c => m.call c
  | .CheckModuleExists LOAD_LIBRARY result => m.CheckModuleExists LOAD_LIBRARY result

def useStep (m : ModuleLoader Handle) (u : ModuleUse Handle) : Option (ModuleLoader Handle) :=
  some (m.use u).2

/-- The use loads a module under the name, with the handle. -/
def loadsBy (name : Bytes) (handle : Handle) : ModuleUse Handle → Prop
  | .call c => loads name handle c
  | .CheckModuleExists _ _ => False

/-- The use unloads the module of the name, if there is one. -/
def unloadsBy (name : Bytes) : ModuleUse Handle → Prop
  | .call (.UnloadModule filename result) => filename = name ∧ result = 0
  | .call (.LoadModule _ _) | .CheckModuleExists _ _ => False

/-- The module of the handle is loaded under the name: nothing was loaded under the name since, and
it was not unloaded. -/
def InUse (name : Bytes) (handle : Handle) (uses : List (ModuleUse Handle)) : Prop :=
  PastTime.Since (fun u => (∀ handle', ¬loadsBy name handle' u) ∧ ¬unloadsBy name u)
    (fun _ u => loadsBy name handle u) uses

/-- The module of the name is unloaded before another one is loaded under the name. -/
def Dropped (name : Bytes) (uses : List (ModuleUse Handle)) : Prop :=
  ∃ before u after, uses = before ++ u :: after ∧ unloadsBy name u ∧
    ∀ v ∈ before, ∀ handle, ¬loadsBy name handle v

/-- The use leaves the library of the handle open no more often than it was. -/
def NotReopened (handle : Handle) : ModuleUse Handle → Prop
  | .call (.LoadModule files _) => files.opens ≠ some handle
  | .call (.UnloadModule _ _) => True
  | .CheckModuleExists LOAD_LIBRARY result => LOAD_LIBRARY = some handle → result = 0

end ModuleLoader

namespace Linker

variable {Handle Library Address T : Type*} [DecidableEq Handle]

/-- The null pointer is `some none`, and `none` a call of `dlsym` that is not defined. -/
def GetFunction (l : Linker Handle Library Address) (m : ModuleLoader Handle)
    (module_name function_name : Bytes) : Option (Option Address) :=
  match m.GetHandle module_name with
  | none => some none
  | some handle => l.dlsym m (some handle) (cStr function_name)

/-- What the function at an address makes of the configuration is a parameter. -/
def GetInstance (l : Linker Handle Library Address)
    (instances : Address → Json → Except StdException (Option T)) (m : ModuleLoader Handle)
    (module_name : Bytes) (config : Json) (symbol_name : Bytes) :
    Option (Except StdException (Option T)) :=
  match m.GetHandle module_name with
  | none => some (.ok none)
  | some _ =>
    (l.GetFunction m module_name symbol_name).map fun get_instance_func =>
      match get_instance_func with
      | none => .ok none
      | some address => instances address config

def GetTaskPointer (l : Linker Handle Library Address)
    (instances : Address → Json → Except StdException (Option T)) (m : ModuleLoader Handle)
    (module_name : Bytes) (config : Json) : Option (Except StdException (Option T)) :=
  l.GetInstance instances m module_name config (bytes "GetTaskInstance")

def GetDevicePointer (l : Linker Handle Library Address)
    (instances : Address → Json → Except StdException (Option T)) (m : ModuleLoader Handle)
    (module_name : Bytes) (config : Json) : Option (Except StdException (Option T)) :=
  l.GetInstance instances m module_name config (bytes "GetDeviceInstance")

end Linker

namespace ModuleLoader

variable {Handle : Type*} {m m' : ModuleLoader Handle} {name : Bytes} {handle : Handle}
  {uses : List (ModuleUse Handle)}

/-! One use. -/

theorem entries_use (u : ModuleUse Handle) (h : m.Entries) : (m.use u).2.Entries := by
  cases u with
  | call c => exact entries_call c h
  | CheckModuleExists LOAD_LIBRARY result =>
    cases LOAD_LIBRARY with
    | none => exact h
    | some handle =>
      refine ⟨h.nodup, fun p => ?_⟩
      have hopened := h.opened p
      have hif : (if result = 0 then [handle] else []).countP p ≤ [handle].countP p := by
        split_ifs
        · exact Nat.le_refl _
        · exact Nat.zero_le _
      simp only [use, CheckModuleExists, List.countP_append]
      omega

theorem entries_of_uses (h : EventMachine.run useStep init uses = some m) : m.Entries := by
  refine EventMachine.reachable_invariant entries_init (fun m u t hm ht => ?_) ⟨uses, h⟩
  obtain rfl := Option.some.inj ht
  exact entries_use u hm

/-- The uses that spare the name. -/
theorem spares_iff (name : Bytes) (c : ModuleCall Handle) :
    spares name c ↔
      (∀ handle, ¬loadsBy name handle (.call c)) ∧ ¬unloadsBy name (.call c) := by
  cases c with
  | LoadModule files name' => exact (and_iff_left not_false).symm
  | UnloadModule filename result => exact (and_iff_right fun _ => not_false).symm

theorem getHandle_use (h : m.Entries) (u : ModuleUse Handle) (name : Bytes) (handle : Handle) :
    (m.use u).2.GetHandle name = some handle ↔
      loadsBy name handle u ∨
        ((∀ handle', ¬loadsBy name handle' u) ∧ ¬unloadsBy name u) ∧
          m.GetHandle name = some handle := by
  cases u with
  | call c =>
    have hcall := getHandle_call h c name handle
    rwa [spares_iff] at hcall
  | CheckModuleExists LOAD_LIBRARY result =>
    have hsame : (m.use (.CheckModuleExists LOAD_LIBRARY result)).2.handles_ = m.handles_ := by
      cases LOAD_LIBRARY <;> rfl
    rw [GetHandle, hsame]
    simp only [loadsBy, unloadsBy, not_false_eq_true, implies_true, and_self, true_and, false_or,
      GetHandle]

/-- The entries are the modules that are in use. -/
theorem getHandle_iff_inUse (h : EventMachine.run useStep init uses = some m) (name : Bytes)
    (handle : Handle) : m.GetHandle name = some handle ↔ InUse name handle uses := by
  have hinit : (init : ModuleLoader Handle).GetHandle name ≠ some handle := by
    intro hinit
    cases hinit
  refine PastTime.run_iff_since (R := fun m => m.GetHandle name = some handle) hinit ?_ h
  intro before u v w hv hw
  obtain rfl := Option.some.inj hw
  exact getHandle_use (entries_of_uses hv) u name handle

/-! The uses before a module is dropped. -/

theorem not_dropped_nil : ¬Dropped name ([] : List (ModuleUse Handle)) := by
  intro ⟨before, u, after, hnil, _⟩
  exact List.append_ne_nil_of_right_ne_nil before (List.cons_ne_nil u after) hnil.symm

theorem dropped_cons {u : ModuleUse Handle} {later : List (ModuleUse Handle)} :
    Dropped name (u :: later) ↔
      unloadsBy name u ∨ (∀ handle, ¬loadsBy name handle u) ∧ Dropped name later := by
  constructor
  · intro ⟨before, v, after, heq, hunloads, hbefore⟩
    cases before with
    | nil =>
      obtain ⟨rfl, -⟩ := List.cons.inj heq
      exact Or.inl hunloads
    | cons b before =>
      obtain ⟨rfl, hlater⟩ := List.cons.inj heq
      rw [List.forall_mem_cons] at hbefore
      exact Or.inr ⟨hbefore.1, before, v, after, hlater, hunloads, hbefore.2⟩
  · intro h
    rcases h with hunloads | ⟨hloads, before, v, after, rfl, hunloads, hbefore⟩
    · exact ⟨[], u, later, rfl, hunloads, fun v hv => absurd hv List.not_mem_nil⟩
    · exact ⟨u :: before, v, after, rfl, hunloads, List.forall_mem_cons.mpr ⟨hloads, hbefore⟩⟩

/-! What a use opens and closes. -/

section Count

variable [DecidableEq Handle]

/-- The library of the handle is open once more than it has entries. -/
def Surplus (m : ModuleLoader Handle) (handle : Handle) : Prop :=
  m.closed.count handle + m.handles_.countP (fun e => e.2 == handle) < m.opened.count handle

theorem Surplus.isOpen (h : m.Surplus handle) : m.Open handle := by
  unfold Surplus at h
  unfold Open
  omega

/-- What is open without an entry is never closed. -/
theorem surplus_use (u : ModuleUse Handle) (h : m.Surplus handle) :
    (m.use u).2.Surplus handle := by
  unfold Surplus at h ⊢
  cases u with
  | call c =>
    have haccount := countP_call (· == handle) m c
    unfold List.count at h ⊢
    simp only [use]
    omega
  | CheckModuleExists LOAD_LIBRARY result =>
    cases LOAD_LIBRARY with
    | none => exact h
    | some handle' =>
      have hif : (if result = 0 then [handle'] else []).count handle ≤ [handle'].count handle := by
        split_ifs
        · exact Nat.le_refl _
        · exact Nat.zero_le _
      simp only [use, CheckModuleExists, List.count_append]
      omega

/-- A module that is loaded under the name of another one leaves the other open. -/
theorem surplus_of_loadsBy (h : m.Entries) (hfind : m.GetHandle name = some handle)
    {u : ModuleUse Handle} {handle' : Handle} (hloads : loadsBy name handle' u) :
    (m.use u).2.Surplus handle := by
  cases u with
  | CheckModuleExists LOAD_LIBRARY result => exact hloads.elim
  | call c =>
    cases c with
    | UnloadModule filename result => exact hloads.elim
    | LoadModule files name' =>
      -- the entry is lost without a `dlclose`
      obtain ⟨rfl, hopens, hread⟩ := hloads
      have hlost : m.lost (.LoadModule files name') = [handle] := by
        rw [GetHandle] at hfind
        simp only [lost, hopens, hread, hfind, Option.toList_some]
      have haccount := countP_call (· == handle) m (.LoadModule files name')
      have hopened := h.opened (· == handle)
      have hone : [handle].countP (· == handle) = 1 := by
        rw [List.countP_singleton, if_pos (beq_self_eq_true handle)]
      rw [hlost, hone] at haccount
      unfold Surplus List.count
      simp only [use]
      omega

/-- A library that is not opened again is not open more often. -/
theorem count_use_of_notReopened {u : ModuleUse Handle} (hkeeps : NotReopened handle u) :
    (m.use u).2.opened.count handle + m.closed.count handle ≤
      m.opened.count handle + (m.use u).2.closed.count handle := by
  cases u with
  | call c =>
    cases c with
    | LoadModule files name' =>
      cases hopens : files.opens with
      | none =>
        simp only [use, call, LoadModule, hopens]
        exact Nat.le_refl _
      | some handle' =>
        have hne : handle' ≠ handle := fun heq => hkeeps (heq ▸ hopens)
        have hcount : [handle'].count handle = 0 :=
          List.count_eq_zero_of_not_mem fun hmem => hne (List.mem_singleton.mp hmem).symm
        cases hread : files.readConfig with
        | error e =>
          simp only [use, call, LoadModule, hopens, hread, List.count_append, hcount]
          omega
        | ok u =>
          simp only [use, call, LoadModule, hopens, hread, List.count_append, hcount]
          omega
    | UnloadModule filename result =>
      cases hfind : KeyedList.find? filename m.handles_ with
      | none =>
        simp only [use, call, UnloadModule, hfind]
        exact Nat.le_refl _
      | some handle' =>
        simp only [use, call, UnloadModule, hfind]
        split_ifs
        · simp only [List.count_append]
          omega
        · exact Nat.le_refl _
  | CheckModuleExists LOAD_LIBRARY result =>
    cases LOAD_LIBRARY with
    | none =>
      simp only [use, CheckModuleExists]
      exact Nat.le_refl _
    | some handle' =>
      simp only [use, CheckModuleExists, List.count_append]
      by_cases heq : handle' = handle
      · rw [if_pos (hkeeps (congrArg some heq))]
        omega
      · have hcount : [handle'].count handle = 0 :=
          List.count_eq_zero_of_not_mem fun hmem => heq (List.mem_singleton.mp hmem).symm
        omega

/-- The unloading closes the library. -/
theorem count_use_of_unloadsBy (hfind : m.GetHandle name = some handle) {u : ModuleUse Handle}
    (hunloads : unloadsBy name u) :
    (m.use u).2.opened.count handle = m.opened.count handle ∧
      (m.use u).2.closed.count handle = m.closed.count handle + 1 := by
  cases u with
  | CheckModuleExists LOAD_LIBRARY result => exact hunloads.elim
  | call c =>
    cases c with
    | LoadModule files name' => exact hunloads.elim
    | UnloadModule filename result =>
      obtain ⟨rfl, hresult⟩ := hunloads
      rw [GetHandle] at hfind
      simp only [use, call, UnloadModule, hfind, if_pos hresult, List.count_append,
        List.count_singleton_self, and_self]

/-! The uses after a module was found. -/

/-- As long as the module is not dropped it keeps its entry, or it is open without one. -/
theorem isOpen_of_not_dropped {later : List (ModuleUse Handle)} (h : m.Entries)
    (hfind : m.GetHandle name = some handle) (hlater : EventMachine.run useStep m later = some m')
    (hdropped : ¬Dropped name later) : m'.Open handle := by
  induction later generalizing m with
  | nil =>
    obtain rfl := Option.some.inj hlater
    exact h.isOpen hfind
  | cons u later ih =>
    obtain ⟨v, hv, hrest⟩ := (EventMachine.run_cons_eq_some useStep).mp hlater
    obtain rfl := Option.some.inj hv
    rw [dropped_cons, not_or, not_and] at hdropped
    by_cases hloads : ∃ handle', loadsBy name handle' u
    · -- another module takes the name, and no later use closes the library that lost it
      obtain ⟨handle', hloads⟩ := hloads
      have hsurplus : m'.Surplus handle := by
        refine EventMachine.reachable_invariant (I := fun w => w.Surplus handle)
          (surplus_of_loadsBy h hfind hloads) (fun w b t hw ht => ?_) ⟨later, hrest⟩
        obtain rfl := Option.some.inj ht
        exact surplus_use b hw
      exact hsurplus.isOpen
    · have hnone : ∀ handle', ¬loadsBy name handle' u := not_exists.mp hloads
      have hkept := (getHandle_use h u name handle).mpr (Or.inr ⟨⟨hnone, hdropped.1⟩, hfind⟩)
      exact ih (entries_use u h) hkept hrest (hdropped.2 hnone)

/-- A library that was opened once is closed when its module is dropped. -/
theorem not_isOpen_of_dropped {later : List (ModuleUse Handle)} (h : m.Entries)
    (hfind : m.GetHandle name = some handle)
    (honce : m.opened.count handle ≤ m.closed.count handle + 1)
    (hlater : EventMachine.run useStep m later = some m')
    (hkeeps : ∀ u ∈ later, NotReopened handle u) (hdropped : Dropped name later) :
    ¬m'.Open handle := by
  induction later generalizing m with
  | nil => exact absurd hdropped not_dropped_nil
  | cons u later ih =>
    obtain ⟨v, hv, hrest⟩ := (EventMachine.run_cons_eq_some useStep).mp hlater
    obtain rfl := Option.some.inj hv
    rw [List.forall_mem_cons] at hkeeps
    have hcount := count_use_of_notReopened (m := m) hkeeps.1
    by_cases hunloads : unloadsBy name u
    · -- the one opening is closed, and nothing after it opens the library for good
      have hcounts := count_use_of_unloadsBy hfind hunloads
      have hclosed : ¬(m.use u).2.Open handle := by
        unfold Open
        omega
      refine EventMachine.run_invariant_of_steps (I := fun w => ¬w.Open handle)
        (G := fun _ b => NotReopened handle b) ?_ hclosed
        (EventMachine.steps_of_forall_mem hkeeps.2 _) hrest
      intro w b t hw hb ht
      obtain rfl := Option.some.inj ht
      have hcount := count_use_of_notReopened (m := w) hb
      unfold Open at hw ⊢
      omega
    · -- the module keeps its entry, and is dropped later
      rw [dropped_cons] at hdropped
      obtain ⟨hloads, hdropped⟩ := hdropped.resolve_left hunloads
      have hkept := (getHandle_use h u name handle).mpr (Or.inr ⟨⟨hloads, hunloads⟩, hfind⟩)
      exact ih (entries_use u h) hkept (by omega) hrest hkeeps.2 hdropped

end Count

end ModuleLoader

namespace Linker

variable {Handle Library Address T : Type*} [DecidableEq Handle] {m m' : ModuleLoader Handle}
  {module_name : Bytes} {uses later : List (ModuleUse Handle)}

/-- In every run `GetInstance` is defined and never reaches the global scope: what it calls is the
first function of the name in the library of the module in use or in the dependencies of it. That
library stays open until the module is dropped, and no longer if nothing else has opened it. -/
theorem getInstance_of_run (l : Linker Handle Library Address)
    (instances : Address → Json → Except StdException (Option T)) (module_name : Bytes)
    (config : Json) (symbol_name : Bytes)
    (h : EventMachine.run ModuleLoader.useStep ModuleLoader.init uses = some m)
    (hlater : EventMachine.run ModuleLoader.useStep m later = some m') :
    ((∀ handle, ¬ModuleLoader.InUse module_name handle uses) →
      m.HasModule module_name = false ∧
        l.GetInstance instances m module_name config symbol_name = some (.ok none)) ∧
    ∀ handle, ModuleLoader.InUse module_name handle uses →
      m.HasModule module_name = true ∧
      l.GetInstance instances m module_name config symbol_name =
        some (match l.search (cStr symbol_name)
            (l.library handle :: l.dependencies (l.library handle)) with
          | none => .ok none
          | some address => instances address config) ∧
      (¬ModuleLoader.Dropped module_name later → m'.Open handle) ∧
      (m.opened.count handle = m.closed.count handle + 1 →
        (∀ u ∈ later, ModuleLoader.NotReopened handle u) →
          ModuleLoader.Dropped module_name later → ¬m'.Open handle) := by
  have hentries := ModuleLoader.entries_of_uses h
  have hhas : m.HasModule module_name = (m.GetHandle module_name).isSome := rfl
  constructor
  · intro hnone
    have hfind : m.GetHandle module_name = none := by
      refine Option.eq_none_iff_forall_ne_some.mpr fun handle hfind => hnone handle ?_
      exact (ModuleLoader.getHandle_iff_inUse h module_name handle).mp hfind
    rw [hhas, GetInstance, hfind]
    exact ⟨rfl, rfl⟩
  · intro handle huse
    have hfind := (ModuleLoader.getHandle_iff_inUse h module_name handle).mpr huse
    have hopen := hentries.isOpen hfind
    have hfunction : l.GetFunction m module_name symbol_name =
        l.dlsym m (some handle) (cStr symbol_name) := by
      rw [GetFunction, hfind]
    refine ⟨?_, ?_, ModuleLoader.isOpen_of_not_dropped hentries hfind hlater, fun honce =>
      ModuleLoader.not_isOpen_of_dropped hentries hfind honce.le hlater⟩
    · rw [hhas, hfind]
      rfl
    · rw [GetInstance, hfind, hfunction, dlsym, if_pos hopen]
      rfl

/-- A camera module, which is its own library and needs the C library. -/
def cameraLinker : Linker Bytes Bytes Bytes where
  library handle := handle
  dependencies _ := [bytes "libc.so.6"]
  symbol library name :=
    if library = bytes "camera.so" ∧ name = bytes "GetDeviceInstance" then some library else none
  global_scope _ := [bytes "openapt"]

/-- The camera module is loaded without an info file. -/
def cameraLoaded : List (ModuleUse Bytes) :=
  [.call (.LoadModule ⟨.ok true, some (bytes "camera.so"), .ok false, .error ⟨[]⟩⟩
    (bytes "camera"))]

/-- It is looked for again and unloaded. -/
def cameraUnloaded : List (ModuleUse Bytes) :=
  [.CheckModuleExists (some (bytes "camera.so")) 0, .call (.UnloadModule (bytes "camera") 0)]

/-- The device comes from the module, whose library is closed in the end. -/
theorem getInstance_of_run_camera :
    ∃ m m' : ModuleLoader Bytes,
      EventMachine.run ModuleLoader.useStep ModuleLoader.init cameraLoaded = some m ∧
      EventMachine.run ModuleLoader.useStep m cameraUnloaded = some m' ∧
      cameraLinker.GetDevicePointer (fun address _ => .ok (some address)) m (bytes "camera") .null =
        some (.ok (some (bytes "camera.so"))) ∧
      ¬m'.Open (bytes "camera.so") := by
  obtain ⟨m, hm⟩ : ∃ m : ModuleLoader Bytes,
      EventMachine.run ModuleLoader.useStep ModuleLoader.init cameraLoaded = some m := ⟨_, rfl⟩
  obtain ⟨m', hm'⟩ : ∃ m' : ModuleLoader Bytes,
      EventMachine.run ModuleLoader.useStep m cameraUnloaded = some m' := ⟨_, rfl⟩
  have huse : ModuleLoader.InUse (bytes "camera") (bytes "camera.so") cameraLoaded :=
    ⟨[], _, [], rfl, ⟨rfl, rfl, rfl⟩, fun u hu => absurd hu List.not_mem_nil⟩
  obtain ⟨-, hinstance, -, hclosed⟩ := (getInstance_of_run cameraLinker
    (fun address _ => .ok (some address)) (bytes "camera") .null (bytes "GetDeviceInstance")
    hm hm').2 (bytes "camera.so") huse
  have hkeeps : ∀ u ∈ cameraUnloaded, ModuleLoader.NotReopened (bytes "camera.so") u :=
    List.forall_mem_cons.mpr ⟨fun _ => rfl, List.forall_mem_singleton.mpr trivial⟩
  have hdropped : ModuleLoader.Dropped (bytes "camera") cameraUnloaded :=
    ⟨[.CheckModuleExists (some (bytes "camera.so")) 0], _, [], rfl, ⟨rfl, rfl⟩,
      List.forall_mem_singleton.mpr fun _ => not_false⟩
  refine ⟨m, m', hm, hm', hinstance, hclosed ?_ hkeeps hdropped⟩
  -- the library was opened once
  obtain rfl := Option.some.inj hm
  rfl

end Linker

end OpenAPT
