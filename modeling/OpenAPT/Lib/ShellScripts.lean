import Mathlib.Data.List.Basic
import Mathlib.Tactic.Common
import OpenAPT.Lib.Delimited
import OpenAPT.Lib.ShellWords

/-! Scripts of simple commands by the rules of the POSIX shell: a newline ends a command, and the
status of a script is that of its last command. -/
namespace ShellWords
open Delimited

/-- The commands of a script, of which each has a line of its own. A line without words is no
command. -/
def script (t : Text) : Option (List (List Text)) :=
  ((lines newline t).mapM words).map fun commands => commands.filter (· ≠ [])

/-- The status after the commands, where that of each of them depends on those before it. -/
def lastStatus (status : List (List Text) → List Text → ℕ) (commands : List (List Text)) : ℕ :=
  match commands.getLast? with
  | none => 0
  | some command => status commands.dropLast command

namespace State

theorem run_bare {p : Text} (hp : Bare p) (done : List Text) :
    run ⟨done, [], .blank⟩ p = some ⟨done, p, .plain⟩ := by
  obtain ⟨hne, hstart, hliteral⟩ := hp
  obtain ⟨c, q, rfl⟩ := List.exists_cons_of_ne_nil hne
  rw [List.forall_mem_cons] at hliteral
  rw [run_cons, step_of_isLiteral hliteral.1 (Or.inr ⟨rfl, hstart c rfl⟩), Option.bind_some,
    run_plain hliteral.2]
  rfl

end State

theorem words_bare {p : Text} (hp : Bare p) : words p = some [p] := by
  rw [words, start, State.run_bare hp, Option.bind_some]
  rfl

theorem words_bare_space {p q : Text} (hp : Bare p) (hq : Bare q) :
    words (p ++ space :: q) = some [p, q] := by
  have hspace : State.step ⟨[], p, .plain⟩ space = some ⟨[p], [], .blank⟩ := rfl
  rw [words, start, State.run_append, State.run_bare hp, Option.bind_some, State.run_cons, hspace,
    Option.bind_some, State.run_bare hq, Option.bind_some]
  rfl

theorem newline_not_mem_of_bare {p : Text} (hp : Bare p) : newline ∉ p := by
  intro h
  have hliteral : isLiteral newline = true := hp.2.2 newline h
  cases hliteral

/-- A command on the first line and words of their own on the others. -/
theorem script_join {t : Text} {command : List Text} (hline : newline ∉ t)
    (hcommand : words t = some command) (hne : command ≠ []) {ps : List Text}
    (hps : ∀ p ∈ ps, Bare p) :
    script (t ++ ps.flatMap (newline :: ·)) = some (command :: ps.map fun p => [p]) := by
  have htne : t ≠ [] := by
    rintro rfl
    exact hne (Option.some.inj hcommand).symm
  have hlines : lines newline (t ++ ps.flatMap (newline :: ·)) = t :: ps :=
    lines_join ⟨htne, hline⟩ fun p hp => ⟨(hps p hp).1, newline_not_mem_of_bare (hps p hp)⟩
  have hwords : ps.mapM words = some (ps.map fun p => [p]) := by
    clear hlines
    induction ps with
    | nil => rfl
    | cons p ps ih =>
      rw [List.forall_mem_cons] at hps
      rw [List.mapM_cons, words_bare hps.1, ih hps.2]
      rfl
  have hfilter : ∀ c ∈ command :: ps.map fun p => [p], decide (c ≠ []) = true := by
    refine List.forall_mem_cons.mpr ⟨decide_eq_true hne, fun c hc => ?_⟩
    obtain ⟨p, _, rfl⟩ := List.mem_map.mp hc
    exact decide_eq_true (List.cons_ne_nil p [])
  rw [script, hlines, List.mapM_cons, hcommand, hwords]
  exact congrArg some (List.filter_eq_self.mpr hfilter)

end ShellWords
