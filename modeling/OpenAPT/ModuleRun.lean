import Mathlib.Algebra.Ring.Int.Defs
import OpenAPT.Lib.PastTime
import OpenAPT.ModuleLoader

/-! `LoadAndRunFunction`. A null handle is no error for `dlsym`: it stands for the global scope. -/
namespace OpenAPT

/-- The dynamic linker: the library of each handle, the dependencies of each library in the order of
their search, what a library itself defines, and the libraries that are searched for a null handle
while the module loader is in a state. -/
structure Linker (Handle Library Address : Type*) where
  library : Handle → Library
  dependencies : Library → List Library
  symbol : Library → Bytes → Option Address
  global_scope : ModuleLoader Handle → List Library

/-- How a function was run: the function, if one was called, and the value that was returned. -/
structure FunctionRun (Address T : Type*) where
  called : Option Address
  value : T

namespace ModuleLoader

variable {Handle : Type*}

/-- No entry holds a null pointer. -/
def GetHandle (m : ModuleLoader Handle) (name : Bytes) : Option Handle :=
  KeyedList.find? name m.handles_

/-- The handle is closed less often than it was opened. -/
def Open [DecidableEq Handle] (m : ModuleLoader Handle) (handle : Handle) : Prop :=
  m.closed.count handle < m.opened.count handle

instance [DecidableEq Handle] (m : ModuleLoader Handle) (handle : Handle) :
    Decidable (m.Open handle) := inferInstanceAs (Decidable (_ < _))

/-- The call loads a module under the name, with the handle. -/
def loads (name : Bytes) (handle : Handle) (c : ModuleCall Handle) : Prop :=
  match c with
  | .LoadModule files name' => name' = name ∧ files.opens = some handle ∧ files.readConfig = .ok ()
  | .UnloadModule _ _ => False

/-- The call neither loads a module under the name nor unloads the one that has it. -/
def spares (name : Bytes) (c : ModuleCall Handle) : Prop :=
  match c with
  | .LoadModule _ _ => ∀ handle, ¬loads name handle c
  | .UnloadModule filename result => ¬(filename = name ∧ result = 0)

/-- After the calls the module of the handle is loaded under the name. -/
def Loaded (name : Bytes) (handle : Handle) (calls : List (ModuleCall Handle)) : Prop :=
  PastTime.Since (spares name) (fun _ c => loads name handle c) calls

end ModuleLoader

namespace Linker

variable {Handle Library Address T : Type*} [DecidableEq Handle]

/-- The first definition in the libraries. -/
def search (l : Linker Handle Library Address) (name : Bytes) (libraries : List Library) :
    Option Address :=
  libraries.findSome? fun library => l.symbol library name

/-- `dlsym`, which is not defined for a handle that is not open. -/
def dlsym (l : Linker Handle Library Address) (m : ModuleLoader Handle) (handle : Option Handle)
    (name : Bytes) : Option (Option Address) :=
  match handle with
  | none => some (l.search name (l.global_scope m))
  | some handle =>
    if m.Open handle then
      some (l.search name (l.library handle :: l.dependencies (l.library handle)))
    else none

/-- The value of the function itself is not returned. A function that is to run asynchronously is
given to `m_ThreadManager`, a pointer that nothing sets: this is not defined. -/
def LoadAndRunFunction [Zero T] (l : Linker Handle Library Address) (m : ModuleLoader Handle)
    (module_name func_name : Bytes) (runasync : Bool) : Option (FunctionRun Address T) :=
  (l.dlsym m (m.GetHandle module_name) (cStr func_name)).bind fun sym_ptr =>
    match sym_ptr with
    | none => some ⟨none, 0⟩
    | some func_ptr => if runasync then none else some ⟨some func_ptr, 0⟩

/-- The result is defined: a function is called only if it is the own one of the module that is
loaded under the name, and otherwise the value is zero. -/
def RunsOwn (T : Type*) [Zero T] (l : Linker Handle Library Address)
    (calls : List (ModuleCall Handle)) (m : ModuleLoader Handle) (module_name func_name : Bytes)
    (runasync : Bool) : Prop :=
  ∃ run : FunctionRun Address T, l.LoadAndRunFunction m module_name func_name runasync = some run ∧
    match run.called with
    | some func_ptr => ∃ handle, ModuleLoader.Loaded module_name handle calls ∧
        l.symbol (l.library handle) (cStr func_name) = some func_ptr
    | none => run.value = 0

/-- There is no other function of the name to be found: in the dependencies of the module that is
loaded, if it does not define the function itself, and in the global scope, if none is loaded. -/
def NoOther (l : Linker Handle Library Address) (calls : List (ModuleCall Handle))
    (m : ModuleLoader Handle) (module_name func_name : Bytes) : Prop :=
  (∀ handle, ModuleLoader.Loaded module_name handle calls →
    l.symbol (l.library handle) (cStr func_name) = none →
      ∀ library ∈ l.dependencies (l.library handle), l.symbol library (cStr func_name) = none) ∧
  ((∀ handle, ¬ModuleLoader.Loaded module_name handle calls) →
    ∀ library ∈ l.global_scope m, l.symbol library (cStr func_name) = none)

/-- The module that is loaded under the name does not define the function. -/
def NoOwn (l : Linker Handle Library Address) (calls : List (ModuleCall Handle))
    (module_name func_name : Bytes) : Prop :=
  ∀ handle, ModuleLoader.Loaded module_name handle calls →
    l.symbol (l.library handle) (cStr func_name) = none

end Linker

namespace ModuleLoader

variable {Handle : Type*} {m : ModuleLoader Handle}

/-- Every name has one entry, and the handles of the entries are open. -/
structure Entries (m : ModuleLoader Handle) : Prop where
  nodup : (m.handles_.map Prod.fst).Nodup
  opened : ∀ p : Handle → Bool,
    m.closed.countP p + m.handles_.countP (fun e => p e.2) ≤ m.opened.countP p

theorem entries_init : (init : ModuleLoader Handle).Entries :=
  ⟨List.nodup_nil, fun _ => Nat.le_refl 0⟩

theorem entries_call (c : ModuleCall Handle) (h : m.Entries) : (m.call c).2.Entries := by
  constructor
  · cases c with
    | LoadModule files name =>
      cases hopens : files.opens with
      | none =>
        simp only [call, LoadModule, hopens]
        exact h.nodup
      | some handle =>
        cases hread : files.readConfig with
        | error e =>
          simp only [call, LoadModule, hopens, hread]
          exact h.nodup
        | ok u =>
          simp only [call, LoadModule, hopens, hread]
          exact KeyedList.nodup_keys_insert h.nodup
    | UnloadModule filename result =>
      cases hfind : KeyedList.find? filename m.handles_ with
      | none =>
        simp only [call, UnloadModule, hfind]
        exact h.nodup
      | some handle =>
        simp only [call, UnloadModule, hfind]
        split_ifs
        · exact ((KeyedList.erase_sublist filename m.handles_).map Prod.fst).nodup h.nodup
        · exact h.nodup
  · intro p
    have haccount := countP_call p m c
    have hopened := h.opened p
    omega

theorem entries_of_run {calls : List (ModuleCall Handle)}
    (h : EventMachine.run step init calls = some m) : m.Entries := by
  refine EventMachine.reachable_invariant entries_init (fun m c t hm ht => ?_) ⟨calls, h⟩
  obtain rfl := Option.some.inj ht
  exact entries_call c hm

/-- A handle that is looked up can be given to `dlsym`. -/
theorem Entries.isOpen [DecidableEq Handle] (h : m.Entries) {name : Bytes} {handle : Handle}
    (hfind : m.GetHandle name = some handle) : m.Open handle := by
  have hcount := h.opened (· == handle)
  have hpos : 0 < m.handles_.countP fun e => e.2 == handle :=
    List.countP_pos_iff.mpr ⟨(name, handle), KeyedList.mem_of_find? hfind, beq_self_eq_true handle⟩
  unfold Open List.count
  omega

/-- One call: the name has the handle after it, if the call loads it so, or if it had it before and
is spared. -/
theorem getHandle_call (h : m.Entries) (c : ModuleCall Handle) (name : Bytes) (handle : Handle) :
    (m.call c).2.GetHandle name = some handle ↔
      loads name handle c ∨ spares name c ∧ m.GetHandle name = some handle := by
  unfold GetHandle
  cases c with
  | LoadModule files name' =>
    cases hopens : files.opens with
    | none => simp [call, LoadModule, loads, spares, hopens]
    | some handle' =>
      cases hread : files.readConfig with
      | error e => simp [call, LoadModule, loads, spares, hopens, hread]
      | ok u =>
        simp only [call, LoadModule, loads, spares, hopens, hread, KeyedList.find?_insert]
        by_cases hname : name = name'
        · simp [hname]
        · simp [hname, Ne.symm hname]
  | UnloadModule filename result =>
    simp only [call, UnloadModule, loads, spares, false_or]
    cases hfind : KeyedList.find? filename m.handles_ with
    | none =>
      refine ⟨fun hname => ⟨?_, hname⟩, fun hname => hname.2⟩
      rintro ⟨rfl, -⟩
      cases hfind.symm.trans hname
    | some handle' =>
      dsimp only
      split_ifs with hresult
      · by_cases hname : name = filename
        · rw [hname, KeyedList.find?_erase_self h.nodup]
          refine iff_of_false (fun hnone => ?_) fun hspared => hspared.1 ⟨rfl, hresult⟩
          cases hnone
        · rw [KeyedList.find?_erase_of_ne hname, iff_and_self]
          exact fun _ hspared => hname hspared.1.symm
      · rw [iff_and_self]
        exact fun _ hspared => hresult hspared.2

/-- The entries are the modules that are loaded after the calls. -/
theorem getHandle_iff_loaded {calls : List (ModuleCall Handle)}
    (h : EventMachine.run step init calls = some m) (name : Bytes) (handle : Handle) :
    m.GetHandle name = some handle ↔ Loaded name handle calls := by
  have hinit : (init : ModuleLoader Handle).GetHandle name ≠ some handle := by
    intro hinit
    cases hinit
  refine PastTime.run_iff_since (R := fun m => m.GetHandle name = some handle) hinit ?_ h
  intro before c u v hu hv
  obtain rfl := Option.some.inj hv
  exact getHandle_call (entries_of_run hu) c name handle

end ModuleLoader

namespace Linker

section Search

variable {Handle Library Address : Type*} {l : Linker Handle Library Address}

theorem search_eq_none_iff {name : Bytes} {libraries : List Library} :
    l.search name libraries = none ↔ ∀ library ∈ libraries, l.symbol library name = none :=
  List.findSome?_eq_none_iff

/-- A module finds its own function before those of its dependencies. -/
theorem search_cons (name : Bytes) (library : Library) (libraries : List Library) :
    l.search name (library :: libraries) =
      (l.symbol library name).or (l.search name libraries) := by
  unfold search
  rw [List.findSome?_cons]
  cases l.symbol library name <;> rfl

end Search

variable {Handle Library Address : Type*} [DecidableEq Handle] (T : Type*) [Zero T]
  {m : ModuleLoader Handle} {calls : List (ModuleCall Handle)}

/-- Where `dlsym` is defined, what it finds is called, or given to the missing thread manager. -/
theorem runsOwn_iff_of_dlsym {l : Linker Handle Library Address} {module_name func_name : Bytes}
    {found : Option Address}
    (h : l.dlsym m (m.GetHandle module_name) (cStr func_name) = some found) (runasync : Bool) :
    l.RunsOwn T calls m module_name func_name runasync ↔
      (∀ func_ptr, found = some func_ptr → ∃ handle,
        ModuleLoader.Loaded module_name handle calls ∧
          l.symbol (l.library handle) (cStr func_name) = some func_ptr) ∧
      (runasync = true → found = none) := by
  unfold RunsOwn LoadAndRunFunction
  rw [h, Option.bind_some]
  cases found with
  | none => exact iff_of_true ⟨_, rfl, rfl⟩ ⟨nofun, fun _ => rfl⟩
  | some func_ptr =>
    cases runasync with
    | true =>
      refine iff_of_false ?_ ?_
      · rintro ⟨run, hrun, -⟩
        cases hrun
      · rintro ⟨-, hnone⟩
        cases hnone rfl
    | false =>
      constructor
      · rintro ⟨run, hrun, hcalled⟩
        refine ⟨fun func_ptr' hfound => ?_, nofun⟩
        obtain rfl := Option.some.inj hrun
        obtain rfl := Option.some.inj hfound
        exact hcalled
      · rintro ⟨hfound, -⟩
        exact ⟨_, rfl, hfound func_ptr rfl⟩

/-- Where the module has no function of its own, nothing may be found. -/
theorem runsOwn_iff_of_noOwn {l : Linker Handle Library Address} {module_name func_name : Bytes}
    {found : Option Address}
    (h : l.dlsym m (m.GetHandle module_name) (cStr func_name) = some found)
    (hown : l.NoOwn calls module_name func_name) (runasync : Bool) :
    l.RunsOwn T calls m module_name func_name runasync ↔ found = none := by
  rw [runsOwn_iff_of_dlsym T h runasync]
  constructor
  · rintro ⟨hfound, -⟩
    apply Option.eq_none_iff_forall_ne_some.mpr
    intro func_ptr hptr
    obtain ⟨handle, hl, hsymbol⟩ := hfound func_ptr hptr
    cases (hown handle hl).symm.trans hsymbol
  · rintro rfl
    exact ⟨nofun, fun _ => rfl⟩

/-- After all calls, `LoadAndRunFunction` runs nothing but the own functions of modules that are
loaded, exactly if there are no other functions of that name and, for an asynchronous run, no own
one either. -/
theorem runsOwn_iff (l : Linker Handle Library Address)
    (h : EventMachine.run ModuleLoader.step ModuleLoader.init calls = some m)
    (module_name func_name : Bytes) (runasync : Bool) :
    l.RunsOwn T calls m module_name func_name runasync ↔
      l.NoOther calls m module_name func_name ∧
        (runasync = true → l.NoOwn calls module_name func_name) := by
  have hloaded := ModuleLoader.getHandle_iff_loaded h module_name
  have hentries := ModuleLoader.entries_of_run h
  cases hfind : m.GetHandle module_name with
  | none =>
    -- no module is loaded under the name, and the global scope is searched
    rw [hfind] at hloaded
    have hnone (handle : Handle) : ¬ModuleLoader.Loaded module_name handle calls :=
      fun hl => nomatch (hloaded handle).mpr hl
    have hnoOwn : l.NoOwn calls module_name func_name :=
      fun handle hl => absurd hl (hnone handle)
    rw [runsOwn_iff_of_noOwn T (congrArg (l.dlsym m · _) hfind) hnoOwn runasync,
      search_eq_none_iff]
    constructor
    · intro hglobal
      exact ⟨⟨fun handle hl => absurd hl (hnone handle), fun _ => hglobal⟩, fun _ => hnoOwn⟩
    · rintro ⟨⟨-, hglobal⟩, -⟩
      exact hglobal hnone
  | some handle =>
    have hl : ModuleLoader.Loaded module_name handle calls := (hloaded handle).mp hfind
    have hunique (handle' : Handle) (hl' : ModuleLoader.Loaded module_name handle' calls) :
        handle' = handle := Option.some.inj (((hloaded handle').mpr hl').symm.trans hfind)
    have hdlsym : l.dlsym m (m.GetHandle module_name) (cStr func_name) =
        some ((l.symbol (l.library handle) (cStr func_name)).or
          (l.search (cStr func_name) (l.dependencies (l.library handle)))) := by
      rw [hfind, dlsym, if_pos (hentries.isOpen hfind), search_cons]
    cases hown : l.symbol (l.library handle) (cStr func_name) with
    | some func_ptr =>
      -- the own function is found first, and only an asynchronous run is left to exclude
      have hother : l.NoOther calls m module_name func_name := by
        refine ⟨fun handle' hl' hundefined => ?_, fun hnone => absurd hl (hnone handle)⟩
        obtain rfl := hunique handle' hl'
        cases hown.symm.trans hundefined
      rw [hown, Option.some_or] at hdlsym
      rw [runsOwn_iff_of_dlsym T hdlsym runasync]
      constructor
      · rintro ⟨-, hasync⟩
        exact ⟨hother, fun hrunasync => nomatch hasync hrunasync⟩
      · rintro ⟨-, hasync⟩
        refine ⟨fun func_ptr' hptr => ⟨handle, hl, hown.trans hptr⟩, fun hrunasync => ?_⟩
        cases hown.symm.trans (hasync hrunasync handle hl)
    | none =>
      -- the module does not define the symbol, and the search goes on in its dependencies
      have hnoOwn : l.NoOwn calls module_name func_name := by
        intro handle' hl'
        obtain rfl := hunique handle' hl'
        exact hown
      rw [hown, Option.none_or] at hdlsym
      rw [runsOwn_iff_of_noOwn T hdlsym hnoOwn runasync, search_eq_none_iff]
      constructor
      · intro hdependencies
        refine ⟨⟨fun handle' hl' _ => ?_, fun hnone => absurd hl (hnone handle)⟩, fun _ => hnoOwn⟩
        obtain rfl := hunique handle' hl'
        exact hdependencies
      · rintro ⟨⟨hdependencies, -⟩, -⟩
        exact hdependencies handle hl hown

/-- A program that is linked with the C library, which defines `abort`. Of the modules each is its
own library, and they define `connect`. -/
def withLibc : Linker Bytes Bytes Bytes where
  library handle := handle
  dependencies _ := [bytes "libc.so.6"]
  symbol library name :=
    if library = bytes "libc.so.6" then if name = bytes "abort" then some name else none
    else if name = bytes "connect" then some (library ++ name) else none
  global_scope m := [bytes "openapt", bytes "libc.so.6"] ++ m.opened.filter (m.Open ·)

/-- Two modules are loaded and one of them is unloaded. -/
def loadsTwo : List (ModuleCall Bytes) :=
  [.LoadModule ⟨.ok true, some (bytes "camera.so"), .ok false, .ok .null⟩ (bytes "camera"),
   .LoadModule ⟨.ok true, some (bytes "mount.so"), .ok false, .ok .null⟩ (bytes "mount"),
   .UnloadModule (bytes "mount") 0]

/-- The loader after these calls. -/
def loadedCamera : ModuleLoader Bytes where
  handles_ := [(bytes "camera", bytes "camera.so")]
  opened := [bytes "camera.so", bytes "mount.so"]
  closed := [bytes "mount.so"]

theorem runsOwn_withLibc :
    withLibc.RunsOwn ℤ loadsTwo loadedCamera (bytes "camera") (bytes "connect") false ↔
      withLibc.NoOther loadsTwo loadedCamera (bytes "camera") (bytes "connect") ∧
        (false = true → withLibc.NoOwn loadsTwo (bytes "camera") (bytes "connect")) :=
  runsOwn_iff ℤ withLibc rfl (bytes "camera") (bytes "connect") false

/-- No module is loaded, and the function of the C library is called. -/
theorem not_runsOwn_withLibc :
    EventMachine.run ModuleLoader.step ModuleLoader.init ([] : List (ModuleCall Bytes)) =
        some ModuleLoader.init ∧
      ¬withLibc.RunsOwn ℤ [] ModuleLoader.init (bytes "camera") (bytes "abort") false := by
  refine ⟨rfl, ?_⟩
  rintro ⟨run, hrun, hcalled⟩
  have hcall : withLibc.LoadAndRunFunction ModuleLoader.init (bytes "camera") (bytes "abort")
      false = some (⟨some (bytes "abort"), 0⟩ : FunctionRun Bytes ℤ) := rfl
  obtain rfl := Option.some.inj (hcall.symm.trans hrun)
  obtain ⟨handle, hloaded, -⟩ := hcalled
  exact PastTime.not_since_nil hloaded

end Linker

end OpenAPT
