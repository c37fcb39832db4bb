import Mathlib.Data.Int.Basic
import OpenAPT.CommandManager
import OpenAPT.Lib.EventMachine

/-! The history of a `CommandManager` and the iterator that goes back and forth in it. Adding to the
vector may invalidate the iterator, and only `addCommandHistory` sets it again. -/
namespace OpenAPT

open EventMachine

/-- A manager with what its vector has room for and the iterator, as a distance from `begin()`.
`none` is an iterator that was invalidated. -/
structure CommandHistory (F : Type) extends CommandManager F where
  capacity : ℕ
  hist_iter_ : Option ℤ

/-- The last two are called as `getTerminalInput` does, after `hasPrevCommand` or
`hasNextCommand`. -/
inductive HistoryCall (F : Type)
  | registerCommand (cmd : Bytes) (func : F)
  | addCommandHistory (cmd : Bytes)
  | runCommand (cmd arg : Bytes)
  | getPrevCommand
  | getNextCommand

namespace CommandHistory

variable {F : Type}

/-- The constructor, for a manager with the commands that are registered with it later. -/
def init (commands_ : List (Bytes × F)) : CommandHistory F := ⟨⟨commands_, [], 0⟩, 0, some 0⟩

/-- What `emplace_back` does to the room and to the iterator: without room all iterators are
invalidated, else only those at the end. `grow` is the new room. -/
def emplaceBack (grow : ℕ → ℕ) (s : CommandHistory F) : CommandHistory F :=
  let size := s.command_history_.length
  if size < s.capacity then { s with hist_iter_ := s.hist_iter_.filter (· < size) }
  else { s with capacity := grow size, hist_iter_ := none }

def addCommandHistory (grow : ℕ → ℕ) (s : CommandHistory F) (cmd : Bytes) : CommandHistory F :=
  let manager := s.toCommandManager.addCommandHistory cmd
  { emplaceBack grow s with
    toCommandManager := manager
    hist_iter_ := some manager.command_history_.length }

/-- `runCommand` as far as it concerns the history. -/
def runCommand (grow : ℕ → ℕ) (s : CommandHistory F) (cmd arg : Bytes) : CommandHistory F :=
  match KeyedList.find? cmd s.commands_ with
  | some _ =>
    { emplaceBack grow s with toCommandManager := s.toCommandManager.remember cmd arg }
  | none => s

/-- The entry at a position; `none` is a position outside of the history. -/
def entryAt (s : CommandHistory F) (position : ℤ) : Option Bytes :=
  if 0 ≤ position then s.command_history_[position.toNat]? else none

/-- What both functions return: the entry under the iterator if the index is one of the history. -/
def current (s : CommandHistory F) : Option Bytes := do
  let iter ← s.hist_iter_
  if 0 ≤ s.history_index_.toInt ∧ s.history_index_.toInt < s.command_history_.length then
    s.entryAt iter
  else some []

def moveTo (s : CommandHistory F) (position : ℤ) : CommandHistory F :=
  { s with hist_iter_ := some position, history_index_ := Int32.ofInt position }

/-- Both ways to go: one position on, unless the iterator is where it cannot go on. `none` is
undefined behaviour: the iterator is not valid, or it is read outside. -/
def getCommand (s : CommandHistory F) (last direction : ℤ) :
    Option (CommandHistory F × Bytes) := do
  let iter ← s.hist_iter_
  let t := if iter ≠ last then s.moveTo (iter + direction) else s
  let entry ← t.current
  pure (t, entry)

def getPrevCommand (s : CommandHistory F) : Option (CommandHistory F × Bytes) :=
  s.getCommand 0 (-1)

def getNextCommand (s : CommandHistory F) : Option (CommandHistory F × Bytes) :=
  s.getCommand ((s.command_history_.length : ℤ) - 1) 1

def hasCommand (s : CommandHistory F) (last : ℤ) : Option Bool :=
  s.hist_iter_.map fun iter => iter ≠ last

def hasNextCommand (s : CommandHistory F) : Option Bool :=
  s.hasCommand ((s.command_history_.length : ℤ) - 1)

def hasPrevCommand (s : CommandHistory F) : Option Bool := s.hasCommand 0

/-- `if (manager.hasCommand()) input = manager.getCommand()`, with the new input if any. -/
def recallWith (has : Option Bool) (get : Option (CommandHistory F × Bytes))
    (s : CommandHistory F) : Option (CommandHistory F × Option Bytes) := do
  if ← has then
    let (t, entry) ← get
    pure (t, some entry)
  else pure (s, none)

def prev (s : CommandHistory F) : Option (CommandHistory F × Option Bytes) :=
  recallWith s.hasPrevCommand s.getPrevCommand s

def next (s : CommandHistory F) : Option (CommandHistory F × Option Bytes) :=
  recallWith s.hasNextCommand s.getNextCommand s

def step (grow : ℕ → ℕ) (s : CommandHistory F) : HistoryCall F → Option (CommandHistory F)
  | .registerCommand cmd func =>
    some { s with toCommandManager := s.toCommandManager.registerCommand cmd func }
  | .addCommandHistory cmd => some (s.addCommandHistory grow cmd)
  | .runCommand cmd arg => some (s.runCommand grow cmd arg)
  | .getPrevCommand => s.prev.map Prod.fst
  | .getNextCommand => s.next.map Prod.fst

/-- The cursor is valid, and between the begin and the end of the history. -/
def InBounds (s : CommandHistory F) : Prop :=
  ∃ iter, s.hist_iter_ = some iter ∧ 0 ≤ iter ∧ iter ≤ s.command_history_.length

/-- The call is defined and leaves the cursor in bounds; if there is an entry to go to, that is
what it returns. -/
def Navigates (grow : ℕ → ℕ) (s : CommandHistory F) (e : HistoryCall F) : Prop :=
  (∃ t, step grow s e = some t ∧ t.InBounds) ∧
    match e with
    | .getPrevCommand => ∀ iter, s.hist_iter_ = some iter → s.hasPrevCommand = some true →
        ∃ t entry, s.getPrevCommand = some (t, entry) ∧ s.entryAt (iter - 1) = some entry
    | .getNextCommand => ∀ iter, s.hist_iter_ = some iter → s.hasNextCommand = some true →
        ∃ t entry, s.getNextCommand = some (t, entry) ∧ s.entryAt (iter + 1) = some entry
    | _ => True

/-- The position fits in the index as an `int`, or there is no text to return. -/
def Shows (s : CommandHistory F) (position : ℤ) : Prop :=
  0 ≤ (Int32.ofInt position).toInt ∨ s.entryAt position = some []

/-- The call does not take the cursor out of the history: a registered command is run only with the
cursor before the end and with room in the vector, and the cursor is not moved on from the end. -/
def Keeps (s : CommandHistory F) : HistoryCall F → Prop
  | .registerCommand _ _ => True
  | .addCommandHistory _ => True
  | .runCommand cmd _ => KeyedList.find? cmd s.commands_ = none ∨
      s.command_history_.length < s.capacity ∧
        ∃ iter, s.hist_iter_ = some iter ∧ iter < s.command_history_.length
  | .getPrevCommand => ∀ iter, s.hist_iter_ = some iter → 0 < iter → s.Shows (iter - 1)
  | .getNextCommand => ∀ iter, s.hist_iter_ = some iter → iter ≠ s.command_history_.length ∧
      (iter + 1 < s.command_history_.length → s.Shows (iter + 1))

variable {s t : CommandHistory F} {grow : ℕ → ℕ} {iter position : ℤ}

/-! ### Positions -/

theorem exists_entryAt (h0 : 0 ≤ position) (hlt : position < s.command_history_.length) :
    ∃ entry, s.entryAt position = some entry := by
  have hbound : position.toNat < s.command_history_.length := by omega
  exact ⟨_, (if_pos h0).trans (List.getElem?_eq_getElem hbound)⟩

/-- As an `int` a distance is not larger than it was. -/
theorem toInt_ofInt_le (h0 : 0 ≤ position) : (Int32.ofInt position).toInt ≤ position := by
  have hsize : (Int32.size : ℤ) = 4294967296 := rfl
  rw [Int32.toInt_ofInt, Int.bmod_def, hsize]
  split_ifs
  all_goals omega

theorem current_moveTo (s : CommandHistory F) (position : ℤ) : (s.moveTo position).current =
    if 0 ≤ (Int32.ofInt position).toInt ∧
        (Int32.ofInt position).toInt < s.command_history_.length then s.entryAt position
    else some [] := rfl

/-- After a move within the history a text is returned, and it is the entry exactly if the entry
shows. -/
theorem exists_current_moveTo (h0 : 0 ≤ position) (hlt : position < s.command_history_.length) :
    ∃ text, (s.moveTo position).current = some text ∧
      (s.entryAt position = some text ↔ s.Shows position) := by
  obtain ⟨entry, hentry⟩ := exists_entryAt h0 hlt
  have hle := toInt_ofInt_le h0
  rw [current_moveTo]
  by_cases hindex : 0 ≤ (Int32.ofInt position).toInt
  · refine ⟨entry, ?_, iff_of_true hentry (Or.inl hindex)⟩
    rw [if_pos ⟨hindex, by omega⟩, hentry]
  · refine ⟨[], if_neg fun h => hindex h.1, ?_⟩
    rw [Shows, or_iff_right hindex]

theorem inBounds_moveTo (h0 : 0 ≤ position) (hle : position ≤ s.command_history_.length) :
    (s.moveTo position).InBounds := ⟨position, rfl, h0, hle⟩

/-! ### One call -/

theorem recallWith_of_last {last direction : ℤ} (hiter : s.hist_iter_ = some last) :
    recallWith (s.hasCommand last) (s.getCommand last direction) s = some (s, none) := by
  simp only [recallWith, hasCommand, hiter, Option.map_some, ne_eq, not_true_eq_false, decide_false,
    Option.bind_eq_bind, Option.bind_some, Bool.false_eq_true, ↓reduceIte, Option.pure_def]

theorem getCommand_of_ne {last direction : ℤ} (hiter : s.hist_iter_ = some iter)
    (hne : iter ≠ last) : s.getCommand last direction =
      (s.moveTo (iter + direction)).current.map
        fun entry => (s.moveTo (iter + direction), entry) := by
  simp only [getCommand, hiter, ne_eq, hne, not_false_eq_true, ↓reduceIte, Option.bind_eq_bind,
    Option.bind_some, Option.pure_def, Option.map_eq_bind, Function.comp_def]

theorem hasCommand_of_ne {last : ℤ} (hiter : s.hist_iter_ = some iter) (hne : iter ≠ last) :
    s.hasCommand last = some true := by
  rw [hasCommand, hiter, Option.map_some, decide_eq_true hne]

theorem recallWith_of_has (get : Option (CommandHistory F × Bytes)) (s : CommandHistory F) :
    recallWith (some true) get s = get.map fun result => (result.1, some result.2) := by
  simp only [recallWith, Option.bind_eq_bind, Option.bind_some, ↓reduceIte, Option.pure_def,
    Option.map_eq_bind, Function.comp_def]

/-- Going back and forth leaves the commands and the entries as they are. -/
theorem getCommand_frame {last direction : ℤ} {result : CommandHistory F × Bytes}
    (h : s.getCommand last direction = some result) :
    result.1.commands_ = s.commands_ ∧ result.1.command_history_ = s.command_history_ := by
  obtain ⟨iter, hiter, h⟩ := Option.bind_eq_some_iff.mp h
  obtain ⟨text, htext, h⟩ := Option.bind_eq_some_iff.mp h
  obtain rfl := Option.some.inj h
  dsimp only
  split_ifs
  · exact ⟨rfl, rfl⟩
  · exact ⟨rfl, rfl⟩

theorem recallWith_frame {last direction : ℤ} {result : CommandHistory F × Option Bytes}
    (h : recallWith (s.hasCommand last) (s.getCommand last direction) s = some result) :
    result.1.commands_ = s.commands_ ∧ result.1.command_history_ = s.command_history_ := by
  obtain ⟨has, hhas, h⟩ := Option.bind_eq_some_iff.mp h
  cases has with
  | false =>
    obtain rfl := Option.some.inj h
    exact ⟨rfl, rfl⟩
  | true =>
    obtain ⟨moved, hmoved, h⟩ := Option.bind_eq_some_iff.mp h
    obtain rfl := Option.some.inj h
    exact getCommand_frame hmoved

/-- A move within the history leads to the position, and a text is returned. -/
theorem exists_getCommand {last direction : ℤ} (hiter : s.hist_iter_ = some iter)
    (hne : iter ≠ last) (h0 : 0 ≤ iter + direction)
    (hlt : iter + direction < s.command_history_.length) :
    ∃ text, s.getCommand last direction = some (s.moveTo (iter + direction), text) ∧
      (s.entryAt (iter + direction) = some text ↔ s.Shows (iter + direction)) := by
  obtain ⟨text, htext, hshows⟩ := exists_current_moveTo h0 hlt
  refine ⟨text, ?_, hshows⟩
  rw [getCommand_of_ne hiter hne, htext, Option.map_some]

/-- A guarded call that stays within the history wherever it moves does what it should exactly if
the entry it moves to shows. -/
theorem recallWith_iff (last direction : ℤ) (hs : s.InBounds) (hiter : s.hist_iter_ = some iter)
    (hwithin : iter ≠ last → 0 ≤ iter + direction ∧
      iter + direction < s.command_history_.length) :
    ((∃ t, (recallWith (s.hasCommand last) (s.getCommand last direction) s).map Prod.fst = some t ∧
        t.InBounds) ∧
      (s.hasCommand last = some true → ∃ t entry, s.getCommand last direction = some (t, entry) ∧
        s.entryAt (iter + direction) = some entry)) ↔
      (iter ≠ last → s.Shows (iter + direction)) := by
  by_cases hlast : iter = last
  · subst hlast
    have hhas : s.hasCommand iter = some false := by
      rw [hasCommand, hiter, Option.map_some, decide_eq_false (not_not_intro rfl)]
    apply iff_of_true
    · refine ⟨⟨s, ?_, hs⟩, fun htrue => ?_⟩
      · rw [recallWith_of_last hiter, Option.map_some]
      · cases hhas.symm.trans htrue
    · exact fun hne => absurd rfl hne
  · obtain ⟨h0, hlt⟩ := hwithin hlast
    obtain ⟨text, hget, hshows⟩ := exists_getCommand hiter hlast h0 hlt
    have hhas := hasCommand_of_ne hiter hlast
    have hbounds : (s.moveTo (iter + direction)).InBounds := inBounds_moveTo h0 (Int.le_of_lt hlt)
    constructor
    · intro ⟨_, hreturns⟩ _
      obtain ⟨t, entry, ht, hentry⟩ := hreturns hhas
      obtain rfl : text = entry := congrArg Prod.snd (Option.some.inj (hget.symm.trans ht))
      exact hshows.mp hentry
    · intro hkeeps
      have hentry := hshows.mpr (hkeeps hlast)
      refine ⟨⟨_, ?_, hbounds⟩, fun _ => ⟨_, text, hget, hentry⟩⟩
      rw [hhas, recallWith_of_has, hget, Option.map_some, Option.map_some]

/-- From the end of the history the next call leads out of it. -/
theorem not_navigates_of_end (hiter : s.hist_iter_ = some iter)
    (hend : iter = s.command_history_.length) : ¬ Navigates grow s .getNextCommand := by
  intro ⟨⟨t, ht, hbounds⟩, _⟩
  have hne : iter ≠ (s.command_history_.length : ℤ) - 1 := by omega
  rw [step, next, hasNextCommand, hasCommand_of_ne hiter hne, recallWith_of_has, getNextCommand,
    getCommand_of_ne hiter hne, Option.map_map, Option.map_map] at ht
  obtain ⟨text, -, rfl⟩ := Option.map_eq_some_iff.mp ht
  obtain ⟨position, hposition, -, hle⟩ := hbounds
  obtain rfl : iter + 1 = position := Option.some.inj hposition
  have hlength : iter + 1 ≤ (s.command_history_.length : ℤ) := hle
  omega

/-- Running a registered command keeps the cursor exactly if it is before the end and the vector
does not move. -/
theorem inBounds_runCommand_iff {cmd arg : Bytes} {func : F} (hs : s.InBounds)
    (hfind : KeyedList.find? cmd s.commands_ = some func) :
    (s.runCommand grow cmd arg).InBounds ↔ s.command_history_.length < s.capacity ∧
      ∃ iter, s.hist_iter_ = some iter ∧ iter < s.command_history_.length := by
  obtain ⟨iter, hiter, h0, hle⟩ := hs
  have hlength : (s.runCommand grow cmd arg).command_history_.length =
      s.command_history_.length + 1 := by
    rw [runCommand, hfind]
    exact List.length_append
  have hkept : (s.runCommand grow cmd arg).hist_iter_ = (emplaceBack grow s).hist_iter_ := by
    rw [runCommand, hfind]
  rw [InBounds, hkept, hlength]
  by_cases hroom : s.command_history_.length < s.capacity
  · -- in place the new entry only invalidates an iterator at the end
    have hfilter : (emplaceBack grow s).hist_iter_ =
        (some iter).filter (· < (s.command_history_.length : ℤ)) := by
      rw [emplaceBack, if_pos hroom, hiter]
    rw [hfilter, hiter]
    by_cases hbefore : iter < (s.command_history_.length : ℤ)
    · apply iff_of_true
      · refine ⟨iter, ?_, h0, by omega⟩
        rw [Option.filter_some, decide_eq_true hbefore, if_pos rfl]
      · exact ⟨hroom, iter, rfl, hbefore⟩
    · apply iff_of_false
      · rintro ⟨position, hposition, -, -⟩
        rw [Option.filter_some, decide_eq_false hbefore] at hposition
        cases hposition
      · rintro ⟨-, position, hposition, hlt⟩
        obtain rfl := Option.some.inj hposition
        exact hbefore hlt
  · -- a new buffer invalidates all of them
    have hmoved : (emplaceBack grow s).hist_iter_ = none := by
      rw [emplaceBack, if_neg hroom]
    apply iff_of_false
    · rintro ⟨position, hposition, -, -⟩
      cases hmoved.symm.trans hposition
    · exact fun h => hroom h.1

theorem inBounds_addCommandHistory (grow : ℕ → ℕ) (s : CommandHistory F) (cmd : Bytes) :
    (s.addCommandHistory grow cmd).InBounds :=
  ⟨_, rfl, Int.natCast_nonneg _, Int.le_refl _⟩

/-- What a call may ask of the cursor can be read at the cursor. -/
theorem forall_iter_iff (hiter : s.hist_iter_ = some iter) (p : ℤ → Prop) :
    (∀ i, s.hist_iter_ = some i → p i) ↔ p iter := by
  constructor
  · exact fun h => h iter hiter
  · intro h i hi
    rwa [← Option.some.inj (hiter.symm.trans hi)]

/-- With the cursor in bounds a call does what it should exactly if it keeps it there. -/
theorem navigates_iff (grow : ℕ → ℕ) (hs : s.InBounds) (e : HistoryCall F) :
    Navigates grow s e ↔ s.Keeps e := by
  have hbounds := hs
  obtain ⟨iter, hiter, h0, hle⟩ := hs
  cases e with
  | registerCommand cmd func =>
    exact iff_of_true ⟨⟨_, rfl, iter, hiter, h0, hle⟩, trivial⟩ trivial
  | addCommandHistory cmd =>
    exact iff_of_true ⟨⟨_, rfl, inBounds_addCommandHistory grow s cmd⟩, trivial⟩ trivial
  | runCommand cmd arg =>
    have hstep : Navigates grow s (.runCommand cmd arg) ↔ (s.runCommand grow cmd arg).InBounds := by
      simp only [Navigates, step, Option.some.injEq, exists_eq_left', and_true]
    rw [hstep, Keeps]
    cases hfind : KeyedList.find? cmd s.commands_ with
    | some func =>
      rw [inBounds_runCommand_iff hbounds hfind, or_iff_right (Option.some_ne_none func)]
    | none =>
      apply iff_of_true
      · rw [runCommand, hfind]
        exact hbounds
      · exact Or.inl rfl
  | getPrevCommand =>
    have hguarded := recallWith_iff 0 (-1) hbounds hiter (by omega)
    rw [Keeps, forall_iter_iff hiter, Navigates, forall_iter_iff hiter]
    apply hguarded.trans
    constructor
    · exact fun h hpos => h (by omega)
    · exact fun h hne => h (by omega)
  | getNextCommand =>
    by_cases hend : iter = s.command_history_.length
    · apply iff_of_false (not_navigates_of_end hiter hend)
      rw [Keeps, forall_iter_iff hiter]
      exact fun h => h.1 hend
    · have hguarded := recallWith_iff ((s.command_history_.length : ℤ) - 1) 1 hbounds hiter
        (by omega)
      rw [Keeps, forall_iter_iff hiter, Navigates, forall_iter_iff hiter, and_iff_right hend]
      apply hguarded.trans
      constructor
      · exact fun h hlt => h (by omega)
      · exact fun h hne => h (by omega)

/-! ### Entries -/

theorem addCommandHistory_commands (grow : ℕ → ℕ) (s : CommandHistory F) (cmd : Bytes) :
    (s.addCommandHistory grow cmd).commands_ = s.commands_ := rfl

theorem addCommandHistory_entries (grow : ℕ → ℕ) (s : CommandHistory F) (cmd : Bytes) :
    (s.addCommandHistory grow cmd).command_history_ = s.command_history_ ++ [cmd] := rfl

theorem runCommand_commands (grow : ℕ → ℕ) (s : CommandHistory F) (cmd arg : Bytes) :
    (s.runCommand grow cmd arg).commands_ = s.commands_ := by
  unfold runCommand
  split
  · rfl
  · rfl

theorem runCommand_entries (grow : ℕ → ℕ) (s : CommandHistory F) (cmd arg : Bytes) :
    (s.runCommand grow cmd arg).command_history_ =
      s.command_history_ ++ match KeyedList.find? cmd s.commands_ with
        | some _ => [cmd ++ bytes " " ++ arg]
        | none => [] := by
  unfold runCommand
  cases KeyedList.find? cmd s.commands_ with
  | some func => rfl
  | none => exact (List.append_nil _).symm

/-! ### Runs -/

/-- A sequence of calls keeps to the history exactly if each call on its own keeps the cursor. -/
theorem steps_navigates_iff (grow : ℕ → ℕ) (commands_ : List (Bytes × F))
    (calls : List (HistoryCall F)) :
    Steps (step grow) (Navigates grow) (init commands_) calls ↔
      Steps (step grow) Keeps (init commands_) calls := by
  apply steps_congr_of_steps (I := InBounds)
  · intro s e t hs hkeeps ht
    obtain ⟨⟨u, hu, hbounds⟩, -⟩ := (navigates_iff grow hs e).mpr hkeeps
    rwa [Option.some.inj (ht.symm.trans hu)]
  · exact fun s e hs => navigates_iff grow hs e
  · exact ⟨0, rfl, Int.le_refl 0, Int.natCast_nonneg _⟩

/-- After one entry there is said to be a next one, and the cursor goes behind the end. -/
theorem getNextCommand_leaves_history :
    let grow := fun size => 2 * size + 1
    ∃ s t : CommandHistory Unit,
      run (step grow) (init []) [.addCommandHistory (bytes "ls")] = some s ∧
      s.hasNextCommand = some true ∧ s.getNextCommand = some (t, []) ∧
      t.hist_iter_ = some 2 ∧ t.command_history_ = [bytes "ls"] ∧
      ¬ Steps (step grow) (Navigates grow) (init ([] : List (Bytes × Unit)))
        [.addCommandHistory (bytes "ls"), .getNextCommand] := by
  refine ⟨_, _, rfl, rfl, rfl, rfl, rfl, ?_⟩
  intro ⟨_, hrest⟩
  exact not_navigates_of_end rfl rfl (hrest _ rfl).1

end CommandHistory

end OpenAPT
