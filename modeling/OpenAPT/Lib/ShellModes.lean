import Mathlib.Data.List.Basic
import Mathlib.Tactic.Common
import OpenAPT.Lib.ShellWords

/-! Which texts are those of a simple command: this depends on the modes alone, and neither words
that need no quotes nor the names of options matter for it. -/
namespace ShellWords

/-- The text is that of a simple command. -/
def IsSimple (p : Text) : Prop := ∃ ws, words p = some ws

/-- A blank, and the text between double quotes. -/
def quoted (p : Text) : Text := space :: doubleQuote :: (p ++ [doubleQuote])

/-- Words, each after a blank. -/
def spaced (ws : List Text) : Text := ws.flatMap fun w => space :: w

/-- Nothing, or a blank and what comes after it. -/
def IsSpaced (p : Text) : Prop := p = [] ∨ ∃ q, p = space :: q

/-- The mode after a byte does not depend on the words. -/
theorem State.mode_step (s : State) (c : UInt8) :
    (s.step c).map State.mode = (State.step ⟨[], [], s.mode⟩ c).map State.mode := by
  obtain ⟨done, cur, mode⟩ := s
  cases mode <;>
    simp only [step, bare, apply_ite (Option.map State.mode), Option.map_none, Option.map_some]

namespace Mode

/-- The mode after a text. -/
def after (m : Mode) (p : Text) : Option Mode := (State.run ⟨[], [], m⟩ p).map State.mode

/-- After a blank the same may come between words and in a word. -/
def settle : Mode → Mode
  | .blank => .plain
  | m => m

@[simp] theorem pending_settle (m : Mode) : m.settle.pending = m.pending := by cases m <;> rfl

@[simp] theorem settle_settle (m : Mode) : m.settle.settle = m.settle := by cases m <;> rfl

@[simp] theorem after_nil (m : Mode) : m.after [] = some m := rfl

end Mode

theorem State.mode_run (s : State) (p : Text) : (s.run p).map State.mode = s.mode.after p := by
  induction p generalizing s with
  | nil => rfl
  | cons c p ih =>
    -- both runs start at the same mode again after the byte
    have hstep := State.mode_step s c
    rw [Mode.after, run_cons, run_cons]
    cases hs : s.step c with
    | none =>
      rw [hs, Option.map_none, eq_comm, Option.map_eq_none_iff] at hstep
      rw [hstep]
    | some t =>
      rw [hs, Option.map_some, eq_comm, Option.map_eq_some_iff] at hstep
      obtain ⟨u, hu, hmode⟩ := hstep
      rw [hu, Option.bind_some, Option.bind_some, ih t, ih u, hmode]

namespace Mode

variable {m m' : Mode} {p q : Text}

theorem after_append (m : Mode) (p q : Text) :
    m.after (p ++ q) = (m.after p).bind fun m' => m'.after q := by
  rw [after, State.run_append, after]
  cases State.run ⟨[], [], m⟩ p with
  | none => rfl
  | some s => exact State.mode_run s q

theorem after_cons (m : Mode) (c : UInt8) (p : Text) :
    m.after (c :: p) = (m.after [c]).bind fun m' => m'.after p := after_append m [c] p

/-- A blank ends a word, and is a part of the text in quotes and after a backslash. -/
theorem after_space (m : Mode) :
    ∃ m', m.after [space] = some m' ∧ m'.pending = 0 ∧ (m.pending = 0 → m'.settle = m.settle) := by
  cases m <;> exact ⟨_, rfl, rfl, fun h => by first | rfl | cases h⟩

/-- Before a blank it does not matter whether a word has begun. -/
theorem after_congr (h : m.settle = m'.settle) (hp : IsSpaced p) :
    (m.after p).map settle = (m'.after p).map settle := by
  rcases hp with rfl | ⟨q, rfl⟩
  · rw [after_nil, after_nil, Option.map_some, Option.map_some, h]
  · have hspace : m.after [space] = m'.after [space] := by
      cases m <;> cases m' <;> first | rfl | cases h
    rw [after_cons, after_cons m', hspace]

theorem after_of_isLiteral (hm : m.pending = 0) (hblank : m ≠ .blank)
    (hp : ∀ c ∈ p, isLiteral c = true) : m.after p = some m := by
  induction p with
  | nil => rfl
  | cons c p ih =>
    rw [List.forall_mem_cons] at hp
    have hc := hp.1
    simp only [isLiteral, isQuoting, isSpecial, Bool.not_eq_true', Bool.or_eq_false_iff,
      decide_eq_false_iff_not] at hc
    have hstep : m.after [c] = some m := by
      cases m <;> simp_all [after, State.run_cons, State.step, State.bare, isSpecial, pending,
        isExpansion]
    rw [after_cons, hstep, Option.bind_some, ih hp.2]

/-- A word without quotes begins a word between words, and elsewhere is a part of one. -/
theorem after_word (hm : m.pending = 0) (hp : Bare p) : m.after p = some m.settle := by
  obtain ⟨hne, hstart, hliteral⟩ := hp
  by_cases hblank : m = .blank
  · obtain ⟨c, q, rfl⟩ := List.exists_cons_of_ne_nil hne
    rw [List.forall_mem_cons] at hliteral
    have hstep : State.step ⟨[], [], .blank⟩ c = some ⟨[], [c], .plain⟩ :=
      State.step_of_isLiteral hliteral.1 (Or.inr ⟨rfl, hstart c rfl⟩)
    rw [hblank, after, State.run_cons, hstep, Option.bind_some, State.run_plain hliteral.2]
    rfl
  · rw [after_of_isLiteral hm hblank hliteral]
    cases m <;> first | rfl | exact absurd rfl hblank

end Mode

/-- The state after a text that ends in a complete word or between words. -/
theorem isSimple_iff (p : Text) :
    IsSimple p ↔ (Mode.blank.after p).map Mode.settle = some .plain := by
  have hmode : (start.run p).map State.mode = Mode.blank.after p := rfl
  rw [← hmode, IsSimple, words]
  cases start.run p with
  | none =>
    constructor
    · rintro ⟨ws, hws⟩
      cases hws
    · intro hnone
      cases hnone
  | some s =>
    obtain ⟨done, cur, mode⟩ := s
    cases mode <;> simp [State.finish, Mode.settle]

/-- The texts lead to the same modes, without a backslash at the end, where none comes before. -/
def Matches (p q : Text) : Prop :=
  ∀ m : Mode, m.pending = 0 → (m.after p).map Mode.settle = (m.after q).map Mode.settle ∧
    ∀ m' ∈ m.after q, m'.pending = 0

section Matches

variable {p p' q q' w : Text}

theorem Matches.append (h : Matches p q) (h' : Matches p' q') (hspaced : IsSpaced q') :
    Matches (p ++ p') (q ++ q') := by
  intro m hm
  obtain ⟨hends, hpending⟩ := h m hm
  rw [Mode.after_append, Mode.after_append]
  cases hp : m.after p with
  | none =>
    rw [hp, Option.map_none, eq_comm, Option.map_eq_none_iff] at hends
    rw [hends]
    exact ⟨rfl, nofun⟩
  | some m₁ =>
    rw [hp, Option.map_some, eq_comm, Option.map_eq_some_iff] at hends
    obtain ⟨m₂, hq, hsettle⟩ := hends
    -- `m₁` and `m₂` differ at most in whether a word has begun, and `q'` begins with a blank
    have hm₂ : m₂.pending = 0 := hpending m₂ hq
    have hm₁ : m₁.pending = 0 := by
      rw [← Mode.pending_settle, ← hsettle, Mode.pending_settle, hm₂]
    rw [hq, Option.bind_some, Option.bind_some]
    refine ⟨?_, (h' m₂ hm₂).2⟩
    rw [(h' m₁ hm₁).1, Mode.after_congr hsettle.symm hspaced]

theorem Matches.nil : Matches [] [] := by
  intro m hm
  refine ⟨rfl, fun m' hm' => ?_⟩
  obtain rfl := Option.some.inj hm'
  exact hm

/-- A word without quotes does not matter. -/
theorem Matches.word (hw : Bare w) : Matches (space :: w) [] := by
  intro m hm
  refine ⟨?_, (Matches.nil m hm).2⟩
  obtain ⟨m', hspace, hm', hsettle⟩ := m.after_space
  rw [Mode.after_cons, hspace, Option.bind_some, Mode.after_word hm' hw, Option.map_some,
    Mode.settle_settle, hsettle hm, Mode.after_nil, Option.map_some]

theorem Matches.spaced {ws : List Text} (hws : ∀ w ∈ ws, Bare w) : Matches (spaced ws) [] := by
  induction ws with
  | nil => exact Matches.nil
  | cons w ws ih =>
    rw [List.forall_mem_cons] at hws
    exact (Matches.word hws.1).append (ih hws.2) (Or.inl rfl)

/-- The closing quote is not a backslash. -/
theorem Matches.quoted (p : Text) : Matches (quoted p) (quoted p) := by
  intro m hm
  refine ⟨rfl, fun m' hm' => ?_⟩
  have hquoted : ShellWords.quoted p = (space :: doubleQuote :: p) ++ [doubleQuote] := rfl
  rw [hquoted, Mode.after_append, Option.mem_def, Option.bind_eq_some_iff] at hm'
  obtain ⟨m'', -, hquote⟩ := hm'
  cases m'' <;> obtain rfl := Option.some.inj hquote <;> rfl

/-- An empty text between quotes does not matter. -/
theorem Matches.quoted_nil : Matches [] (ShellWords.quoted []) := by
  intro m hm
  refine ⟨?_, (Matches.quoted [] m hm).2⟩
  cases m <;> first | rfl | cases hm

theorem Matches.isSimple_iff (h : Matches p q) : IsSimple p ↔ IsSimple q := by
  rw [ShellWords.isSimple_iff, ShellWords.isSimple_iff, (h .blank rfl).1]

end Matches

/-- Words without quotes may stand after a text exactly if a blank may. -/
theorem isSimple_append_spaced_iff {p : Text} {ws : List Text} (hne : ws ≠ [])
    (hws : ∀ w ∈ ws, Bare w) : IsSimple (p ++ spaced ws) ↔ IsSimple (p ++ [space]) := by
  -- the blank of the first word decides, also after a backslash
  obtain ⟨w, ws, rfl⟩ := List.exists_cons_of_ne_nil hne
  rw [List.forall_mem_cons] at hws
  rw [isSimple_iff, isSimple_iff, Mode.after_append, Mode.after_append]
  cases Mode.blank.after p with
  | none => rfl
  | some m =>
    have hsplit : spaced (w :: ws) = [space] ++ (w ++ spaced ws) := rfl
    obtain ⟨m', hspace, hm', -⟩ := m.after_space
    have hpending : m'.settle.pending = 0 := m'.pending_settle.trans hm'
    rw [Option.bind_some, Option.bind_some, hsplit, Mode.after_append, hspace, Option.bind_some,
      Mode.after_append, Mode.after_word hm' hws.1, Option.bind_some,
      (Matches.spaced hws.2 m'.settle hpending).1, Mode.after_nil, Option.map_some,
      Mode.settle_settle, Option.map_some]

/-- After a blank the words are complete. -/
theorem run_space_of_words {p : Text} {ws : List Text} (h : words p = some ws) :
    start.run (p ++ [space]) = some ⟨ws, [], .blank⟩ := by
  obtain ⟨s, hs, hfinish⟩ := Option.bind_eq_some_iff.mp h
  have hbetween := State.cur_of_not_inWord (fun _ => rfl) hs
  obtain ⟨done, cur, mode⟩ := s
  rw [State.run_append, hs, Option.bind_some]
  cases mode with
  | blank =>
    obtain rfl : cur = [] := hbetween rfl
    obtain rfl := Option.some.inj hfinish
    rfl
  | plain =>
    obtain rfl := Option.some.inj hfinish
    rfl
  | escaped _ => cases hfinish
  | single => cases hfinish
  | double => cases hfinish
  | doubleEscaped => cases hfinish

end ShellWords
