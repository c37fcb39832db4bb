import OpenAPT.CommandHistory
import OpenAPT.Lib.Pieces

/-! `getTerminalInput`, one character after the other. Every line that ends goes into the history,
and once more by `runCommand` if it is the name of a command. -/
namespace OpenAPT

open EventMachine

/-- How much of an escape sequence was read. -/
inductive EscapeSequence
  | none
  | escape
  | bracket
  deriving DecidableEq

/-- The manager and the locals of the loop. `entered` is a history variable: the lines that ended,
empty ones included. -/
structure TerminalInput (F : Type) where
  manager : CommandHistory F
  input : Bytes
  sequence : EscapeSequence
  entered : List Bytes

namespace TerminalInput

variable {F : Type}

/-- The loop with a new manager that has the commands of `main`. -/
def init (commands_ : List (Bytes × F)) : TerminalInput F := ⟨.init commands_, [], .none, []⟩

/-- A line ends: if it is not empty it goes into the history and is run. A function that throws
ends the loop, and the next one begins with no input either. -/
def newline (grow : ℕ → ℕ) (s : TerminalInput F) : TerminalInput F :=
  { s with
    manager :=
      if s.input ≠ [] then (s.manager.addCommandHistory grow s.input).runCommand grow s.input []
      else s.manager
    input := []
    entered := s.entered ++ [s.input] }

/-- The manager after an arrow key, and the entry it put in place of the input. -/
def recalled (s : TerminalInput F) (result : CommandHistory F × Option Bytes) : TerminalInput F :=
  { s with manager := result.1, input := result.2.getD s.input, sequence := .none }

/-- A character of `getchar`, where `none` is `EOF`. The state after it is `none` if what an arrow
key does is undefined. -/
def step (grow : ℕ → ℕ) (s : TerminalInput F) (c : Option UInt8) : Option (TerminalInput F) :=
  match s.sequence with
  | .none =>
    match c with
    | none => some (newline grow s)
    | some c =>
      if c = 10 then some (newline grow s)
      else if c = 127 ∨ c = 8 then some { s with input := s.input.dropLast }
      else if c = 27 then some { s with sequence := .escape }
      else some { s with input := s.input ++ [c] }
  | .escape => some { s with sequence := if c = some 91 then .bracket else .none }
  | .bracket =>
    if c = some 66 then s.manager.next.map s.recalled
    else if c = some 65 then s.manager.prev.map s.recalled
    else some { s with sequence := .none }

/-- What a line leaves in the history. -/
def logged (commands_ : List (Bytes × F)) (line : Bytes) : List Bytes :=
  if line = [] then []
  else
    match KeyedList.find? line commands_ with
    | some _ => [line, line ++ bytes " "]
    | none => [line]

/-- No line is the name of a command. -/
def Unknown (commands_ : List (Bytes × F)) (lines : List Bytes) : Prop :=
  ∀ line ∈ lines, line ≠ [] → KeyedList.find? line commands_ = none

variable {commands_ : List (Bytes × F)} {grow : ℕ → ℕ} {s t : TerminalInput F}

/-- The commands are those from the beginning, and the history has what the lines left. -/
def Inv (commands_ : List (Bytes × F)) (s : TerminalInput F) : Prop :=
  s.manager.commands_ = commands_ ∧
    s.manager.command_history_ = s.entered.flatMap (logged commands_)

/-! ### Characters -/

theorem inv_newline (grow : ℕ → ℕ) (h : Inv commands_ s) : Inv commands_ (newline grow s) := by
  obtain ⟨hcommands, hhistory⟩ := h
  have hentered : (newline grow s).entered.flatMap (logged commands_) =
      s.manager.command_history_ ++ logged commands_ s.input := by
    rw [newline, List.flatMap_append, List.flatMap_singleton, hhistory]
  rw [Inv, hentered, newline, logged]
  by_cases hempty : s.input = []
  · rw [if_neg (not_not_intro hempty), if_pos hempty, List.append_nil]
    exact ⟨hcommands, rfl⟩
  · rw [if_pos hempty, if_neg hempty]
    refine ⟨?_, ?_⟩
    · rw [CommandHistory.runCommand_commands, CommandHistory.addCommandHistory_commands, hcommands]
    · rw [CommandHistory.runCommand_entries, CommandHistory.addCommandHistory_commands,
        CommandHistory.addCommandHistory_entries, hcommands, List.append_assoc]
      cases KeyedList.find? s.input commands_ with
      | some func => rw [List.append_nil, List.singleton_append]
      | none => rw [List.append_nil]

theorem inv_recalled {last direction : ℤ} {result : CommandHistory F × Option Bytes}
    (h : Inv commands_ s)
    (hrecall : CommandHistory.recallWith (s.manager.hasCommand last)
      (s.manager.getCommand last direction) s.manager = some result) :
    Inv commands_ (s.recalled result) := by
  obtain ⟨hcommands, hhistory⟩ := CommandHistory.recallWith_frame hrecall
  exact ⟨hcommands.trans h.1, hhistory.trans h.2⟩

theorem inv_step (h : Inv commands_ s) {c : Option UInt8} (ht : step grow s c = some t) :
    Inv commands_ t := by
  -- the manager changes where a line ends and by the arrow keys
  unfold step at ht
  split at ht
  · split at ht
    · obtain rfl := Option.some.inj ht
      exact inv_newline grow h
    · split_ifs at ht
      · obtain rfl := Option.some.inj ht
        exact inv_newline grow h
      all_goals
        obtain rfl := Option.some.inj ht
        exact h
  · obtain rfl := Option.some.inj ht
    exact h
  · split_ifs at ht
    · obtain ⟨result, hresult, rfl⟩ := Option.map_eq_some_iff.mp ht
      exact inv_recalled h hresult
    · obtain ⟨result, hresult, rfl⟩ := Option.map_eq_some_iff.mp ht
      exact inv_recalled h hresult
    · obtain rfl := Option.some.inj ht
      exact h

theorem inv_run {cs : List (Option UInt8)} (h : run (step grow) (init commands_) cs = some s) :
    Inv commands_ s :=
  reachable_invariant (I := Inv commands_) ⟨rfl, rfl⟩ (fun _ _ _ hs ht => inv_step hs ht) ⟨cs, h⟩

/-! ### Lines -/

/-- What a line should leave there. -/
def entry (line : Bytes) : List Bytes := (Option.guard (· ≠ []) line).toList

theorem filter_eq_flatMap_entry (lines : List Bytes) :
    lines.filter (· ≠ []) = lines.flatMap entry := by
  rw [← List.filterMap_eq_filter, List.filterMap_eq_flatMap_toList]
  rfl

theorem logged_of_unknown {line : Bytes}
    (hunknown : line ≠ [] → KeyedList.find? line commands_ = none) :
    logged commands_ line = entry line := by
  by_cases hempty : line = []
  · rw [logged, if_pos hempty, hempty]
    rfl
  · have hentry : entry line = [line] :=
      congrArg Option.toList (if_pos (decide_eq_true hempty))
    rw [logged, if_neg hempty, hunknown hempty, hentry]

/-- A command leaves an entry too much. -/
theorem length_logged_of_known {line : Bytes}
    (hknown : ¬ (line ≠ [] → KeyedList.find? line commands_ = none)) :
    (entry line).length < (logged commands_ line).length := by
  obtain ⟨hempty, hfind⟩ := Classical.not_imp.mp hknown
  have hentry : (entry line).length ≤ 1 := Option.length_toList_le
  rw [logged, if_neg hempty]
  cases hcommand : KeyedList.find? line commands_ with
  | none => exact absurd hcommand hfind
  | some func =>
    show (entry line).length < 2
    omega

/-- No later line makes up for it. -/
theorem flatMap_logged_eq_iff (commands_ : List (Bytes × F)) (lines : List Bytes) :
    lines.flatMap (logged commands_) = lines.filter (· ≠ []) ↔ Unknown commands_ lines := by
  have hlogged (line : Bytes) : logged commands_ line = entry line ∨
      (entry line).length < (logged commands_ line).length :=
    (em _).imp logged_of_unknown length_logged_of_known
  rw [filter_eq_flatMap_entry, Pieces.flatMap_eq_flatMap_iff hlogged]
  apply forall₂_congr
  intro line _
  constructor
  · intro heq
    by_contra hknown
    exact absurd (congrArg List.length heq.symm) (Nat.ne_of_lt (length_logged_of_known hknown))
  · exact logged_of_unknown

/-- After any characters the history is the list of the lines that are not empty, exactly if none
of them is the name of a command. -/
theorem command_history_eq_iff (grow : ℕ → ℕ) (commands_ : List (Bytes × F))
    (cs : List (Option UInt8)) (s : TerminalInput F)
    (h : run (step grow) (init commands_) cs = some s) :
    s.manager.command_history_ = s.entered.filter (· ≠ []) ↔ Unknown commands_ s.entered := by
  rw [(inv_run h).2]
  exact flatMap_logged_eq_iff commands_ s.entered

/-- A session in which `ls` is entered, an empty line, and a name that is not known. -/
def session : List (Option UInt8) := (bytes "ls\n\nla\n").map some

theorem command_history_eq_iff_session : ∃ s : TerminalInput Unit,
    run (step fun size => 2 * size + 1) (init [(bytes "ls", ())]) session = some s ∧
      (s.manager.command_history_ = s.entered.filter (· ≠ []) ↔
        Unknown [(bytes "ls", ())] s.entered) :=
  ⟨_, rfl, command_history_eq_iff _ _ session _ rfl⟩

theorem session_logs_command_twice : ∃ s : TerminalInput Unit,
    run (step fun size => 2 * size + 1) (init [(bytes "ls", ())]) session = some s ∧
      s.entered.filter (· ≠ []) = [bytes "ls", bytes "la"] ∧
      s.manager.command_history_ = [bytes "ls", bytes "ls ", bytes "la"] ∧
      s.manager.command_history_ ≠ s.entered.filter (· ≠ []) := by
  refine ⟨_, rfl, rfl, rfl, ?_⟩
  decide

end TerminalInput

end OpenAPT
