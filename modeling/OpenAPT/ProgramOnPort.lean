import Mathlib.Data.List.DropRight
import OpenAPT.Lib.ShellScripts
import OpenAPT.NetworkStatus
import OpenAPT.SolverCommands

/-! `CheckAndKillProgramOnPort`. The answer of `lsof` becomes a part of a shell command. -/
namespace OpenAPT

inductive BindResult
  | bound
  | inUse
  | failed
  deriving DecidableEq

/-- What the calls return: `popen` the output of a command, unless it fails, and `status` the status
of a command that the shell runs after others. -/
structure PortEnv where
  socket : Bool
  bind : UInt16 → BindResult
  popen : Bytes → Option Bytes
  status : List (List Bytes) → List Bytes → ℕ

namespace ProgramOnPort

def newline : UInt8 := 0x0A

/-- `std::system`: the commands that run and the status. A script of other than simple commands has
no result here. -/
def system (e : PortEnv) (cmd : Bytes) : Option (List (List Bytes) × ℕ) :=
  (ShellWords.script cmd).map fun commands => (commands, ShellWords.lastStatus e.status commands)

def lsofCommand (port : Int32) : Bytes :=
  bytes "lsof -i :" ++ Decimals.intText port.toInt ++ bytes " -t"

theorem room : 0 < 1023 := by decide

/-- `pid_str` after the loop, without the newlines at its end. -/
def pid_str (output : Bytes) : Bytes :=
  ((LineReads.reads newline 1023 room output).flatMap cStr).rdropWhile (· = newline)

/-- The value that is returned, and the commands that `system` runs. -/
def CheckAndKillProgramOnPort (e : PortEnv) (port : Int32) : Option (Bool × List (List Bytes)) :=
  if e.socket then
    -- `htons` takes the low bits of the port
    match e.bind (UInt16.ofInt port.toInt) with
    | .bound => some (true, [])
    | .failed => some (false, [])
    | .inUse =>
      match e.popen (lsofCommand port) with
      | none => some (false, [])
      | some output =>
        if pid_str output = [] then some (false, [])
        else
          (system e (bytes "kill " ++ pid_str output)).map fun (commands, ret) =>
            (decide (ret = 0), commands)
  else some (false, [])

/-! The text of the processes. -/

theorem flatMap_cStr {pieces : List Bytes} (h : 0 ∉ pieces.flatten) :
    pieces.flatMap cStr = pieces.flatten := by
  induction pieces with
  | nil => rfl
  | cons piece pieces ih =>
    rw [List.flatten_cons, List.mem_append, not_or] at h
    rw [List.flatMap_cons, List.flatten_cons, NetworkStatus.cStr_of_not_mem h.1, ih h.2]

theorem natText_getLast (n : ℕ) : ∃ w b, Decimals.natText n = w ++ [b] ∧ b ≠ newline := by
  obtain ⟨w, b, hconcat⟩ := (List.eq_nil_or_concat (Decimals.natText n)).resolve_left
    (Decimals.natText_ne_nil n)
  rw [List.concat_eq_append] at hconcat
  refine ⟨w, b, hconcat, ?_⟩
  rintro rfl
  have hdigit := Decimals.isDigit_natText n newline
    (hconcat ▸ List.mem_append_right w List.mem_cons_self)
  cases hdigit

theorem zero_not_mem_frames (pids : List ℕ) :
    0 ∉ Delimited.frames newline (pids.map Decimals.natText) := by
  induction pids with
  | nil => exact List.not_mem_nil
  | cons p pids ih =>
    rw [List.map_cons, Delimited.frames_cons, List.mem_append, List.mem_cons, not_or, not_or]
    refine ⟨fun hmem => ?_, by decide, ih⟩
    have hdigit := Decimals.isDigit_natText p 0 hmem
    cases hdigit

theorem frames_eq_join (p : ℕ) (ps : List ℕ) :
    Delimited.frames newline ((p :: ps).map Decimals.natText) =
      Decimals.natText p ++ (ps.map Decimals.natText).flatMap (newline :: ·) ++ [newline] := by
  induction ps generalizing p with
  | nil => rw [List.map_singleton, Delimited.frames_cons, List.map_nil, List.flatMap_nil,
      List.append_nil]; rfl
  | cons q ps ih =>
    rw [List.map_cons, Delimited.frames_cons, ih q, List.map_cons, List.flatMap_cons]
    simp only [List.append_assoc, List.cons_append]

/-- What comes before the last newline does not end in a newline. -/
theorem join_getLast (p : ℕ) (ps : List ℕ) : ∃ w b,
    Decimals.natText p ++ (ps.map Decimals.natText).flatMap (newline :: ·) = w ++ [b] ∧
      b ≠ newline := by
  induction ps generalizing p with
  | nil =>
    rw [List.map_nil, List.flatMap_nil, List.append_nil]
    exact natText_getLast p
  | cons q ps ih =>
    obtain ⟨w, b, hconcat, hb⟩ := ih q
    refine ⟨Decimals.natText p ++ newline :: w, b, ?_, hb⟩
    rw [List.map_cons, List.flatMap_cons, List.cons_append, hconcat, List.append_assoc,
      List.cons_append]

/-- The lines of `lsof -t` lose the last newline. -/
theorem pid_str_frames (p : ℕ) (ps : List ℕ) :
    pid_str (Delimited.frames newline ((p :: ps).map Decimals.natText)) =
      Decimals.natText p ++ (ps.map Decimals.natText).flatMap (newline :: ·) := by
  -- one newline is dropped, and the digit before it stays
  obtain ⟨w, b, hconcat, hb⟩ := join_getLast p ps
  have hdrop (l : Bytes) : (l ++ [newline]).rdropWhile (· = newline) =
      l.rdropWhile (· = newline) := List.rdropWhile_concat_pos _ _ _ (decide_eq_true rfl)
  rw [pid_str, flatMap_cStr, LineReads.flatten_reads, frames_eq_join, hdrop, hconcat]
  · exact List.rdropWhile_concat_neg _ _ _ fun h => hb (of_decide_eq_true h)
  · rw [LineReads.flatten_reads]
    exact zero_not_mem_frames (p :: ps)

theorem words_kill (p : ℕ) :
    ShellWords.words (bytes "kill " ++ Decimals.natText p) =
      some [bytes "kill", Decimals.natText p] := by
  have hkill : ShellWords.Bare (bytes "kill") := by decide
  exact ShellWords.words_bare_space hkill (Astrometry.bare_natText p)

theorem natText_ne_kill (p : ℕ) : Decimals.natText p ≠ bytes "kill" := by
  intro h
  have hdigit := Decimals.isDigit_natText p 0x6B (h ▸ List.mem_cons_self)
  cases hdigit

/-- The script for the processes: only the first of them is an argument of `kill`, and the others
are commands of their own. -/
theorem system_kill (e : PortEnv) (p : ℕ) (ps : List ℕ) :
    system e (bytes "kill " ++ (Decimals.natText p ++
        (ps.map Decimals.natText).flatMap (newline :: ·))) =
      some ([bytes "kill", Decimals.natText p] :: ps.map (fun q => [Decimals.natText q]),
        ShellWords.lastStatus e.status
          ([bytes "kill", Decimals.natText p] :: ps.map fun q => [Decimals.natText q])) := by
  have hline : newline ∉ bytes "kill " ++ Decimals.natText p := by
    rw [List.mem_append, not_or]
    exact ⟨by decide, ShellWords.newline_not_mem_of_bare (Astrometry.bare_natText p)⟩
  have hbare : ∀ t ∈ ps.map Decimals.natText, ShellWords.Bare t := by
    intro t ht
    obtain ⟨q, _, rfl⟩ := List.mem_map.mp ht
    exact Astrometry.bare_natText q
  have hscript := ShellWords.script_join hline (words_kill p) (List.cons_ne_nil _ _) hbare
  rw [List.map_map] at hscript
  rw [← List.append_assoc, system]
  exact congrArg (Option.map _) hscript

/-- The status is that of `kill` only if there is one process. -/
theorem lastStatus_kill (status : List (List Bytes) → List Bytes → ℕ)
    (hnumbers : ∀ before q, status before [Decimals.natText q] ≠ 0) (p : ℕ) (ps : List ℕ) :
    ShellWords.lastStatus status
        ([bytes "kill", Decimals.natText p] :: ps.map fun q => [Decimals.natText q]) = 0 ↔
      ps = [] ∧ status [] [bytes "kill", Decimals.natText p] = 0 := by
  -- the status of a script is that of its last command, which is a number where there are more
  rcases List.eq_nil_or_concat ps with rfl | ⟨qs, q, rfl⟩
  · exact (and_iff_right rfl).symm
  · rw [List.concat_eq_append, List.map_append, List.map_singleton, ← List.cons_append,
      ShellWords.lastStatus, List.getLast?_concat]
    refine iff_of_false (hnumbers _ q) fun h => ?_
    exact List.append_ne_nil_of_right_ne_nil qs (List.cons_ne_nil q []) h.1

/-- On a port in use by the processes that `lsof` lists, the first of them is signalled and no
other one; and where no program has a number for its name, the answer is true exactly if there is
one process and the signal was sent. -/
theorem checkAndKillProgramOnPort_of_pids (e : PortEnv) (port : Int32) (pids : List ℕ)
    (hsocket : e.socket = true) (hbind : e.bind (UInt16.ofInt port.toInt) = .inUse)
    (hlsof : e.popen (lsofCommand port) =
      some (Delimited.frames newline (pids.map Decimals.natText)))
    (hnumbers : ∀ before q, e.status before [Decimals.natText q] ≠ 0) :
    ∃ result commands, CheckAndKillProgramOnPort e port = some (result, commands) ∧
      (commands.filter fun command => command.head? = some (bytes "kill")) =
        (pids.take 1).map (fun p => [bytes "kill", Decimals.natText p]) ∧
      (result = true ↔
        ∃ p, pids = [p] ∧ e.status [] [bytes "kill", Decimals.natText p] = 0) := by
  rw [CheckAndKillProgramOnPort, if_pos hsocket, hbind, hlsof]
  dsimp only
  cases pids with
  | nil =>
    have hempty : pid_str (Delimited.frames newline (List.map Decimals.natText [])) = [] := by
      rw [pid_str, List.map_nil, Delimited.frames, List.map_nil, List.flatten_nil,
        LineReads.reads_nil]
      rfl
    rw [if_pos hempty]
    refine ⟨false, [], rfl, rfl, iff_of_false Bool.false_ne_true fun hone => ?_⟩
    obtain ⟨p, hcons, _⟩ := hone
    cases hcons
  | cons p ps =>
    have hne : pid_str (Delimited.frames newline ((p :: ps).map Decimals.natText)) ≠ [] := by
      rw [pid_str_frames]
      exact List.append_ne_nil_of_left_ne_nil (Decimals.natText_ne_nil p) _
    rw [if_neg hne, pid_str_frames, system_kill, Option.map_some]
    refine ⟨_, _, rfl, ?_, ?_⟩
    · have hothers : ((ps.map fun q => [Decimals.natText q]).filter fun command =>
          command.head? = some (bytes "kill")) = [] := by
        refine List.filter_eq_nil_iff.mpr fun command hmem hkill => ?_
        obtain ⟨q, _, rfl⟩ := List.mem_map.mp hmem
        exact natText_ne_kill q (Option.some.inj (of_decide_eq_true hkill))
      have hfirst : (decide ([bytes "kill", Decimals.natText p].head? = some (bytes "kill"))) =
          true := decide_eq_true rfl
      dsimp only
      rw [List.filter_cons, if_pos hfirst, hothers]
      rfl
    · rw [decide_eq_true_eq, lastStatus_kill e.status hnumbers]
      constructor
      · rintro ⟨rfl, hstatus⟩
        exact ⟨p, rfl, hstatus⟩
      · rintro ⟨q, hcons, hstatus⟩
        obtain ⟨rfl, hnil⟩ := List.cons.inj hcons
        exact ⟨hnil, hstatus⟩

/-- Port 8000 is in use by two processes, and every `kill` succeeds. -/
def twoOnPort : PortEnv where
  socket := true
  bind _ := .inUse
  popen _ := some (Delimited.frames newline ([812, 977].map Decimals.natText))
  status _ command := if command.head? = some (bytes "kill") then 0 else 127

/-- One of the two is signalled, and the answer is false. -/
theorem checkAndKillProgramOnPort_of_pids_two :
    ∃ commands, CheckAndKillProgramOnPort twoOnPort 8000 = some (false, commands) ∧
      (commands.filter fun command => command.head? = some (bytes "kill")) =
        [[bytes "kill", bytes "812"]] := by
  have hnumbers (before : List (List Bytes)) (q : ℕ) :
      twoOnPort.status before [Decimals.natText q] ≠ 0 := by
    have hne : ¬[Decimals.natText q].head? = some (bytes "kill") :=
      fun h => natText_ne_kill q (Option.some.inj h)
    have hstatus : twoOnPort.status before [Decimals.natText q] = 127 := if_neg hne
    omega
  obtain ⟨result, commands, hresult, hkilled, hanswer⟩ :=
    checkAndKillProgramOnPort_of_pids twoOnPort 8000 [812, 977] rfl rfl rfl hnumbers
  have hfalse : result = false := by
    rw [Bool.eq_false_iff]
    intro htrue
    obtain ⟨p, hcons, _⟩ := hanswer.mp htrue
    cases hcons
  exact ⟨commands, hfalse ▸ hresult, hkilled⟩

end ProgramOnPort

end OpenAPT
