import Mathlib.Data.List.Induction
import OpenAPT.Bytes
import OpenAPT.Lib.KeyedList
import OpenAPT.Lib.PastTime

/-! `CommandManager` of the terminal. What `runCommand` and `getRegisteredCommands` return lives in
function-local statics, which the first call that reaches one sets for all instances. -/
namespace OpenAPT

open PastTime

/-- How a registered function ends on an argument: with a string or with an exception. -/
inductive CommandOutcome
  | returned (result : Bytes)
  | threw
  deriving DecidableEq

/-- `F` is the type of the `std::function`s. -/
structure CommandManager (F : Type) where
  commands_ : List (Bytes × F)
  command_history_ : List Bytes
  history_index_ : Int32

/-- All instances, and the statics of the two functions. -/
structure Terminal (M F : Type) where
  manager : M → CommandManager F
  result : Option Bytes
  unknown_cmd : Option Bytes
  command_list : Option (List Bytes)

/-- The calls on the instances. A `runCommand` carries how the function ends if it is invoked. -/
inductive TerminalCall (M F : Type)
  | registerCommand (m : M) (cmd : Bytes) (func : F)
  | runCommand (m : M) (cmd arg : Bytes) (outcome : CommandOutcome)
  | getRegisteredCommands (m : M)

/-- What the caller gets. -/
inductive TerminalValue
  | done
  | ended (outcome : CommandOutcome)
  | names (list : List Bytes)
  deriving DecidableEq

/-- The functions that a call invokes, each with its argument, and what the call returns. -/
structure TerminalResponse (F : Type) where
  invoked : List (F × Bytes)
  value : TerminalValue
  deriving DecidableEq

namespace CommandManager

variable {F : Type}

def registerCommand (c : CommandManager F) (cmd : Bytes) (func : F) : CommandManager F :=
  { c with commands_ := KeyedList.emplace cmd func c.commands_ }

/-- The entry that `runCommand` adds to the history before it calls the function. -/
def remember (c : CommandManager F) (cmd arg : Bytes) : CommandManager F :=
  let history := c.command_history_ ++ [cmd ++ bytes " " ++ arg]
  { c with command_history_ := history, history_index_ := Int32.ofNat history.length }

def addCommandHistory (c : CommandManager F) (cmd : Bytes) : CommandManager F :=
  let history := c.command_history_ ++ [cmd]
  { c with command_history_ := history, history_index_ := Int32.ofNat history.length }

end CommandManager

/-- The text for a name that is not registered. -/
def unknownCommand (cmd : Bytes) : Bytes :=
  bytes "\x1b[31mUnknown command: " ++ cmd ++ bytes "\x1b[0m\n"

theorem unknownCommand_injective : Function.Injective unknownCommand := by
  intro cmd cmd' h
  exact List.append_cancel_left (List.append_cancel_right h)

namespace Terminal

variable {M F : Type}

/-- Nothing is registered and no function was called yet. -/
def initial : Terminal M F where
  manager _ := ⟨[], [], 0⟩
  result := none
  unknown_cmd := none
  command_list := none

def update [DecidableEq M] (s : Terminal M F) (m : M) (c : CommandManager F) : Terminal M F :=
  { s with manager := Function.update s.manager m c }

/-- `static std::string result = it->second(arg)`: the initializer runs once. If it throws, the
static is left unset. -/
def initResult (s : Terminal M F) (func : F) (arg : Bytes) (outcome : CommandOutcome) :
    Terminal M F × TerminalResponse F :=
  match s.result, outcome with
  | some result, _ => (s, ⟨[], .ended (.returned result)⟩)
  | none, .returned result =>
    ({ s with result := some result }, ⟨[(func, arg)], .ended (.returned result)⟩)
  | none, .threw => (s, ⟨[(func, arg)], .ended .threw⟩)

theorem initResult_manager (s : Terminal M F) (func : F) (arg : Bytes) (outcome : CommandOutcome) :
    (s.initResult func arg outcome).1.manager = s.manager := by
  unfold initResult
  split <;> rfl

theorem initResult_response (s : Terminal M F) (func : F) (arg : Bytes)
    (outcome : CommandOutcome) :
    (s.initResult func arg outcome).2 =
      match s.result with
      | some result => ⟨[], .ended (.returned result)⟩
      | none => ⟨[(func, arg)], .ended outcome⟩ := by
  unfold initResult
  cases s.result with
  | some result => rfl
  | none => cases outcome <;> rfl

theorem initResult_unknown_cmd (s : Terminal M F) (func : F) (arg : Bytes)
    (outcome : CommandOutcome) :
    (s.initResult func arg outcome).1.unknown_cmd = s.unknown_cmd := by
  unfold initResult
  split <;> rfl

theorem initResult_command_list (s : Terminal M F) (func : F) (arg : Bytes)
    (outcome : CommandOutcome) :
    (s.initResult func arg outcome).1.command_list = s.command_list := by
  unfold initResult
  split <;> rfl

variable [DecidableEq M]

def runCommand (s : Terminal M F) (m : M) (cmd arg : Bytes) (outcome : CommandOutcome) :
    Terminal M F × TerminalResponse F :=
  match KeyedList.find? cmd (s.manager m).commands_ with
  | some func => (s.update m ((s.manager m).remember cmd arg)).initResult func arg outcome
  | none =>
    let unknown_cmd := s.unknown_cmd.getD (unknownCommand cmd)
    ({ s with unknown_cmd := some unknown_cmd }, ⟨[], .ended (.returned unknown_cmd)⟩)

def getRegisteredCommands (s : Terminal M F) (m : M) : Terminal M F × TerminalResponse F :=
  let commands := (s.manager m).commands_.map Prod.fst
  let command_list := s.command_list.getD commands
  ({ s with command_list := some command_list }, ⟨[], .names command_list⟩)

def call (s : Terminal M F) : TerminalCall M F → Terminal M F × TerminalResponse F
  | .registerCommand m cmd func => (s.update m ((s.manager m).registerCommand cmd func), ⟨[], .done⟩)
  | .runCommand m cmd arg outcome => s.runCommand m cmd arg outcome
  | .getRegisteredCommands m => s.getRegisteredCommands m

/-- The state after a sequence of calls. -/
def after (calls : List (TerminalCall M F)) : Terminal M F :=
  calls.foldl (fun s c => (s.call c).1) initial

/-- What the call `c` gives after the calls `before`. -/
def response (before : List (TerminalCall M F)) (c : TerminalCall M F) : TerminalResponse F :=
  ((after before).call c).2

theorem after_concat (calls : List (TerminalCall M F)) (c : TerminalCall M F) :
    after (calls ++ [c]) = ((after calls).call c).1 := by
  rw [after, after, List.foldl_append, List.foldl_cons, List.foldl_nil]

/-! What the callers may expect is read off the calls before: which functions were registered for
a name, and what set the statics. -/

/-- The functions registered for a name with an instance, in order. -/
def registrations (m : M) (cmd : Bytes) (calls : List (TerminalCall M F)) : List F :=
  calls.filterMap fun
    | .registerCommand n name func => if n = m ∧ cmd = name then some func else none
    | _ => none

/-- The result of a registered function that was run and returned. -/
def returnedResult (before : List (TerminalCall M F)) : TerminalCall M F → Option Bytes
  | .runCommand m cmd _ (.returned result) =>
    if registrations m cmd before = [] then none else some result
  | _ => none

/-- The name of a command that was run and is not registered. -/
def unknownName (before : List (TerminalCall M F)) : TerminalCall M F → Option Bytes
  | .runCommand m cmd _ _ => if registrations m cmd before = [] then some cmd else none
  | _ => none

/-- A request for the registered names, with the calls before it. -/
def listing (before : List (TerminalCall M F)) :
    TerminalCall M F → Option (List (TerminalCall M F) × M)
  | .getRegisteredCommands m => some (before, m)
  | _ => none

theorem registrations_concat (m : M) (cmd : Bytes) (calls : List (TerminalCall M F))
    (c : TerminalCall M F) :
    registrations m cmd (calls ++ [c]) =
      registrations m cmd calls ++ registrations m cmd [c] := by
  rw [registrations, List.filterMap_append]
  rfl

/-- The entries of an instance change only when a command is registered with it. -/
theorem commands_registerCommand (s : Terminal M F) (n m : M) (name : Bytes) (func : F) :
    ((s.call (.registerCommand n name func)).1.manager m).commands_ =
      if n = m then KeyedList.emplace name func (s.manager m).commands_
      else (s.manager m).commands_ := by
  by_cases hnm : n = m
  · subst hnm
    simp only [call, update, Function.update_self, CommandManager.registerCommand, ↓reduceIte]
  · simp only [call, update, Function.update_of_ne (Ne.symm hnm), hnm, ↓reduceIte]

theorem commands_runCommand (s : Terminal M F) (n m : M) (cmd arg : Bytes)
    (outcome : CommandOutcome) :
    ((s.call (.runCommand n cmd arg outcome)).1.manager m).commands_ =
      (s.manager m).commands_ := by
  rw [call, runCommand]
  split
  next func hfunc =>
    rw [initResult_manager, update]
    by_cases hmn : m = n
    · subst hmn
      simp only [Function.update_self, CommandManager.remember]
    · simp only [Function.update_of_ne hmn]
  next => rfl

/-- The entry of a name is the function that was registered first. -/
theorem find?_commands (calls : List (TerminalCall M F)) (m : M) (cmd : Bytes) :
    KeyedList.find? cmd ((after calls).manager m).commands_ = (registrations m cmd calls).head? := by
  induction calls using List.reverseRecOn with
  | nil => rfl
  | append_singleton calls c ih =>
    rw [after_concat, registrations_concat, List.head?_append, ← ih]
    cases c with
    | registerCommand n name func =>
      rw [commands_registerCommand]
      by_cases hnm : n = m
      · rw [if_pos hnm, KeyedList.find?_emplace]
        by_cases hcmd : cmd = name
        · simp only [registrations, hnm, hcmd, and_self, ↓reduceIte, List.filterMap_cons,
            List.filterMap_nil, List.head?_cons]
        · simp only [registrations, hcmd, and_false, ↓reduceIte, List.filterMap_cons,
            List.filterMap_nil, List.head?_nil]
      · simp only [registrations, hnm, false_and, ↓reduceIte, List.filterMap_cons,
          List.filterMap_nil, List.head?_nil, Option.or_none]
    | runCommand n name arg outcome =>
      rw [commands_runCommand]
      exact Option.or_none.symm
    | getRegisteredCommands n => exact Option.or_none.symm

theorem nodup_commands (calls : List (TerminalCall M F)) (m : M) :
    (((after calls).manager m).commands_.map Prod.fst).Nodup := by
  induction calls using List.reverseRecOn with
  | nil => exact List.nodup_nil
  | append_singleton calls c ih =>
    rw [after_concat]
    cases c with
    | registerCommand n name func =>
      rw [commands_registerCommand]
      split_ifs
      · exact KeyedList.nodup_keys_emplace ih
      · exact ih
    | runCommand n cmd arg outcome =>
      rw [commands_runCommand]
      exact ih
    | getRegisteredCommands n => exact ih

theorem mem_commands (calls : List (TerminalCall M F)) (m : M) (cmd : Bytes) :
    cmd ∈ ((after calls).manager m).commands_.map Prod.fst ↔ registrations m cmd calls ≠ [] := by
  rw [← KeyedList.find?_isSome_iff, find?_commands, List.isSome_head?]

/-- The static of `runCommand` keeps the first result that a registered function returned. -/
theorem result_after (calls : List (TerminalCall M F)) :
    (after calls).result = (yields returnedResult calls).head? := by
  have hset (calls : List (TerminalCall M F)) (c : TerminalCall M F) :
      (after (calls ++ [c])).result = (after calls).result.or (returnedResult calls c) := by
    rw [after_concat]
    cases c with
    | registerCommand n name func => exact Option.or_none.symm
    | getRegisteredCommands n => exact Option.or_none.symm
    | runCommand m cmd arg outcome =>
      rw [call, runCommand, find?_commands]
      cases hreg : registrations m cmd calls with
      | nil =>
        simp only [List.head?_nil, returnedResult]
        cases outcome <;> simp only [hreg, ↓reduceIte, Option.or_none]
      | cons func funcs =>
        simp only [List.head?_cons, initResult, update, returnedResult]
        cases hresult : (after calls).result with
        | some result => rfl
        | none => cases outcome <;> simp only [hreg, reduceCtorEq, ↓reduceIte, Option.none_or]
  have hyields := eq_head?_yields returnedResult (fun calls => (after calls).result) (g := id) rfl
    (fun calls c => by rw [Option.map_id]; exact hset calls c) calls
  rwa [Option.map_id] at hyields

/-- The other one keeps the text for the first unknown name. -/
theorem unknown_cmd_after (calls : List (TerminalCall M F)) :
    (after calls).unknown_cmd = (yields unknownName calls).head?.map unknownCommand := by
  have hset (calls : List (TerminalCall M F)) (c : TerminalCall M F) :
      (after (calls ++ [c])).unknown_cmd =
        (after calls).unknown_cmd.or ((unknownName calls c).map unknownCommand) := by
    rw [after_concat]
    cases c with
    | registerCommand n name func => exact Option.or_none.symm
    | getRegisteredCommands n => exact Option.or_none.symm
    | runCommand m cmd arg outcome =>
      rw [call, runCommand, find?_commands, unknownName]
      cases hreg : registrations m cmd calls with
      | nil =>
        simp only [List.head?_nil, ↓reduceIte, Option.map_some]
        cases (after calls).unknown_cmd <;> rfl
      | cons func funcs =>
        simp only [List.head?_cons, initResult_unknown_cmd, update, reduceCtorEq, ↓reduceIte,
          Option.map_none, Option.or_none]
  exact eq_head?_yields unknownName (fun calls => (after calls).unknown_cmd) rfl hset calls

/-- The static of `getRegisteredCommands` keeps the names of the first request. -/
theorem command_list_after (calls : List (TerminalCall M F)) :
    (after calls).command_list =
      (yields listing calls).head?.map fun e =>
        ((after e.1).manager e.2).commands_.map Prod.fst := by
  have hset (calls : List (TerminalCall M F)) (c : TerminalCall M F) :
      (after (calls ++ [c])).command_list = (after calls).command_list.or
        ((listing calls c).map fun e => ((after e.1).manager e.2).commands_.map Prod.fst) := by
    rw [after_concat]
    cases c with
    | registerCommand n name func => exact Option.or_none.symm
    | runCommand m cmd arg outcome =>
      have hkept : ((after calls).runCommand m cmd arg outcome).1.command_list =
          (after calls).command_list := by
        unfold runCommand
        split
        next => rw [initResult_command_list, update]
        next => rfl
      exact hkept.trans Option.or_none.symm
    | getRegisteredCommands m =>
      simp only [call, getRegisteredCommands, listing, Option.map_some]
      cases (after calls).command_list <;> rfl
  exact eq_head?_yields listing (fun calls => (after calls).command_list) rfl hset calls

/-- Which registration of a name is its current one. -/
inductive Registration
  | first
  | last

def Registration.current (r : Registration) (funcs : List F) : Option F :=
  match r with
  | .first => funcs.head?
  | .last => funcs.getLast?

/-- What the caller of `c` may expect after the calls `before`. -/
def Expected (r : Registration) (before : List (TerminalCall M F)) (c : TerminalCall M F)
    (response : TerminalResponse F) : Prop :=
  match c with
  | .registerCommand _ _ _ => True
  | .runCommand m cmd arg outcome =>
    match r.current (registrations m cmd before) with
    | some func => response = ⟨[(func, arg)], .ended outcome⟩
    | none => response = ⟨[], .ended (.returned (unknownCommand cmd))⟩
  | .getRegisteredCommands m =>
    ∃ names, response = ⟨[], .names names⟩ ∧ names.Nodup ∧
      ∀ name, name ∈ names ↔ registrations m name before ≠ []

/-- The call does not meet a static that another call set to something else: a registered command
is run before any has returned, and by its current function; an unknown name is the first one;
and the names are those of the first request. -/
def Unlatched (r : Registration) (before : List (TerminalCall M F)) : TerminalCall M F → Prop
  | .registerCommand _ _ _ => True
  | .runCommand m cmd _ _ =>
    if registrations m cmd before = [] then ∀ name ∈ (yields unknownName before).head?, name = cmd
    else yields returnedResult before = [] ∧
      r.current (registrations m cmd before) = (registrations m cmd before).head?
  | .getRegisteredCommands m =>
    ∀ e ∈ (yields listing before).head?, ∀ name,
      registrations e.2 name e.1 ≠ [] ↔ registrations m name before ≠ []

theorem Registration.current_nil (r : Registration) : r.current ([] : List F) = none := by
  cases r <;> rfl

theorem Registration.exists_current (r : Registration) {funcs : List F} (h : funcs ≠ []) :
    ∃ func, r.current funcs = some func := by
  cases r with
  | first => exact ⟨funcs.head h, List.head?_eq_some_head h⟩
  | last => exact ⟨funcs.getLast h, List.getLast?_eq_some_getLast h⟩

theorem response_unknown {before : List (TerminalCall M F)} {m : M} {cmd : Bytes}
    (h : registrations m cmd before = []) (arg : Bytes) (outcome : CommandOutcome) :
    response before (.runCommand m cmd arg outcome) =
      ⟨[], .ended (.returned (unknownCommand ((yields unknownName before).head?.getD cmd)))⟩ := by
  have hfind : KeyedList.find? cmd ((after before).manager m).commands_ = none := by
    rw [find?_commands, h, List.head?_nil]
  rw [response, call, runCommand, hfind]
  dsimp only
  rw [unknown_cmd_after]
  cases (yields unknownName before).head? <;> rfl

theorem response_registered {before : List (TerminalCall M F)} {m : M} {cmd : Bytes} {func : F}
    (h : (registrations m cmd before).head? = some func) (arg : Bytes) (outcome : CommandOutcome) :
    response before (.runCommand m cmd arg outcome) =
      match (yields returnedResult before).head? with
      | some result => ⟨[], .ended (.returned result)⟩
      | none => ⟨[(func, arg)], .ended outcome⟩ := by
  have hfind : KeyedList.find? cmd ((after before).manager m).commands_ = some func := by
    rw [find?_commands, h]
  rw [response, call, runCommand, hfind]
  dsimp only
  rw [initResult_response, update, result_after]

theorem response_listing (before : List (TerminalCall M F)) (m : M) :
    response before (.getRegisteredCommands m) =
      let e := (yields listing before).head?.getD (before, m)
      ⟨[], .names (((after e.1).manager e.2).commands_.map Prod.fst)⟩ := by
  rw [response, call, getRegisteredCommands]
  dsimp only
  rw [command_list_after]
  cases (yields listing before).head? <;> rfl

/-- One call: it gives what the caller may expect exactly when it meets no foreign static. -/
theorem expected_response_iff (r : Registration) (before : List (TerminalCall M F))
    (c : TerminalCall M F) : Expected r before c (response before c) ↔ Unlatched r before c := by
  cases c with
  | registerCommand m cmd func => exact Iff.rfl
  | runCommand m cmd arg outcome =>
    by_cases hreg : registrations m cmd before = []
    · rw [response_unknown hreg, Expected, Unlatched, if_pos hreg, hreg, r.current_nil]
      dsimp only
      cases (yields unknownName before).head? with
      | none => simp only [Option.getD_none, Option.mem_def, reduceCtorEq, false_implies,
          implies_true]
      | some name =>
        simp only [Option.getD_some, Option.mem_def, Option.some.injEq, forall_eq',
          TerminalResponse.mk.injEq, TerminalValue.ended.injEq, CommandOutcome.returned.injEq,
          unknownCommand_injective.eq_iff, true_and]
    · obtain ⟨func, hfunc⟩ := r.exists_current hreg
      have hfirst := List.head?_eq_some_head hreg
      rw [response_registered hfirst, Expected, Unlatched, if_neg hreg, hfunc, hfirst]
      dsimp only
      cases hrun : yields returnedResult before with
      | nil =>
        simp only [List.head?_nil, TerminalResponse.mk.injEq, List.cons.injEq, Prod.mk.injEq,
          and_true, true_and, Option.some.injEq]
        exact eq_comm
      | cons result results =>
        simp only [List.head?_cons, TerminalResponse.mk.injEq, List.nil_eq, reduceCtorEq,
          false_and]
  | getRegisteredCommands m =>
    rw [response_listing, Expected, Unlatched]
    dsimp only
    cases (yields listing before).head? with
    | none =>
      refine iff_of_true ⟨_, rfl, nodup_commands before m, mem_commands before m⟩ ?_
      exact fun e he => absurd he (Option.not_mem_none e)
    | some e =>
      constructor
      · intro ⟨names, hnames, _, hmem⟩ e' he' name
        obtain rfl : e = e' := Option.some.inj he'
        obtain rfl := TerminalValue.names.inj (TerminalResponse.mk.inj hnames).2
        rw [← mem_commands, ← hmem]
        rfl
      · intro hsame
        refine ⟨_, rfl, nodup_commands e.1 e.2, fun name => ?_⟩
        rw [← hsame e rfl name]
        exact mem_commands e.1 e.2 name

/-- Every call of a sequence gives what its caller may expect exactly when no call meets a static
that another one set. -/
theorem calls_expected_iff_unlatched (r : Registration) (calls : List (TerminalCall M F)) :
    Always (fun before c => Expected r before c (response before c)) calls ↔
      Always (Unlatched r) calls :=
  always_congr (expected_response_iff r)

/-- A command that returns its argument is run twice. -/
def echoTwice : List (TerminalCall Unit Unit) :=
  [.registerCommand () (bytes "echo") (),
    .runCommand () (bytes "echo") (bytes "a") (.returned (bytes "a")),
    .runCommand () (bytes "echo") (bytes "b") (.returned (bytes "b"))]

theorem not_expected_echoTwice (r : Registration) :
    ¬ Always (fun before c => Expected r before c (response before c)) echoTwice := by
  intro h
  have hlast := h (echoTwice.take 2) _ [] rfl
  have hrun : response (echoTwice.take 2) (.runCommand () (bytes "echo") (bytes "b")
      (.returned (bytes "b"))) = ⟨[((), bytes "b")], .ended (.returned (bytes "b"))⟩ := by
    cases r with
    | first => exact hlast
    | last => exact hlast
  exact absurd hrun (by decide)

/-- The second run returns the result of the first one, whichever registration is meant. -/
theorem second_run_not_invoked :
    ¬ Always (fun before c => Expected .first before c (response before c)) echoTwice ∧
      ¬ Always (fun before c => Expected .last before c (response before c)) echoTwice :=
  ⟨not_expected_echoTwice .first, not_expected_echoTwice .last⟩

end Terminal

end OpenAPT
