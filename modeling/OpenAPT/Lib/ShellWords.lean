import Mathlib.Data.List.Basic
import Mathlib.Tactic.Common

/-! The words of a simple command by the quoting rules of the POSIX shell. A text with an operator,
a comment, an expansion or an open quote has no words here; reserved words are not told apart. -/
namespace ShellWords

abbrev Text := List UInt8

/-- Where the reader is: between words, in a word, after a backslash (with whether a word has
begun), between single quotes, between double quotes, and after a backslash there. -/
inductive Mode
  | blank
  | plain
  | escaped (inWord : Bool)
  | single
  | double
  | doubleEscaped
  deriving DecidableEq

/-- The words that are complete, and the one that is not. -/
structure State where
  done : List Text
  cur : Text
  mode : Mode
  deriving DecidableEq

def backslash : UInt8 := 0x5C
def doubleQuote : UInt8 := 0x22
def singleQuote : UInt8 := 0x27
def space : UInt8 := 0x20
def newline : UInt8 := 0x0A

def isBlank (c : UInt8) : Bool := c = space || c = 0x09

/-- `NUL`, `$` and the backquote. -/
def isExpansion (c : UInt8) : Bool := c = 0x00 || c = 0x24 || c = 0x60

/-- What ends the simple command or is expanded where it is not quoted: besides, newline, the bytes
of operators `& ( ) ; < > |` and those of patterns `* ? [`. -/
def isSpecial (c : UInt8) : Bool :=
  isExpansion c || c = newline || c = 0x26 || c = 0x28 || c = 0x29 || c = 0x3B || c = 0x3C ||
    c = 0x3E || c = 0x7C || c = 0x2A || c = 0x3F || c = 0x5B

/-- `#` and `~`, which begin a comment and the name of a home directory. -/
def isStartSpecial (c : UInt8) : Bool := c = 0x23 || c = 0x7E

namespace State

/-- A byte that is not quoted and not blank. -/
def bare (s : State) (inWord : Bool) (c : UInt8) : Option State :=
  if isSpecial c then none
  else if c = singleQuote then some { s with mode := .single }
  else if c = doubleQuote then some { s with mode := .double }
  else if c = backslash then some { s with mode := .escaped inWord }
  else some { s with cur := s.cur ++ [c], mode := .plain }

def step (s : State) (c : UInt8) : Option State :=
  match s.mode with
  | .blank =>
    if isBlank c then some s
    else if isStartSpecial c then none
    else s.bare false c
  | .plain =>
    if isBlank c then some ⟨s.done ++ [s.cur], [], .blank⟩
    else s.bare true c
  | .escaped inWord =>
    if c = 0x00 then none
    else if c = newline then some { s with mode := if inWord then .plain else .blank }
    else some { s with cur := s.cur ++ [c], mode := .plain }
  | .single =>
    if c = 0x00 then none
    else if c = singleQuote then some { s with mode := .plain }
    else some { s with cur := s.cur ++ [c] }
  | .double =>
    if isExpansion c then none
    else if c = doubleQuote then some { s with mode := .plain }
    else if c = backslash then some { s with mode := .doubleEscaped }
    else some { s with cur := s.cur ++ [c] }
  | .doubleEscaped =>
    if c = 0x00 then none
    else if c = newline then some { s with mode := .double }
    else if isExpansion c || c = doubleQuote || c = backslash then
      some { s with cur := s.cur ++ [c], mode := .double }
    else some { s with cur := s.cur ++ [backslash, c], mode := .double }

def run (s : State) (t : Text) : Option State := t.foldlM step s

/-- The words at the end of the text. -/
def finish (s : State) : Option (List Text) :=
  match s.mode with
  | .blank => some s.done
  | .plain => some (s.done ++ [s.cur])
  | .escaped _ | .single | .double | .doubleEscaped => none

end State

def start : State := ⟨[], [], .blank⟩

def words (t : Text) : Option (List Text) := (start.run t).bind State.finish

namespace State

variable {s t : State} {c : UInt8}

@[simp] theorem run_nil (s : State) : s.run [] = some s := rfl

theorem run_cons (s : State) (c : UInt8) (p : Text) :
    s.run (c :: p) = (s.step c).bind fun t => t.run p := List.foldlM_cons

theorem run_append (s : State) (p q : Text) : s.run (p ++ q) = (s.run p).bind fun t => t.run q :=
  List.foldlM_append

/-- What is complete before does not matter. -/
def after (before : List Text) (s : State) : State := { s with done := before ++ s.done }

theorem step_after (before : List Text) (s : State) (c : UInt8) :
    (s.after before).step c = (s.step c).map (after before) := by
  obtain ⟨done, cur, mode⟩ := s
  have hbare (inWord : Bool) : (after before ⟨done, cur, mode⟩).bare inWord c =
      ((⟨done, cur, mode⟩ : State).bare inWord c).map (after before) := by
    simp only [bare, after, apply_ite (Option.map _), Option.map_none, Option.map_some]
  cases mode <;>
    simp only [step, after, apply_ite (Option.map _), Option.map_none, Option.map_some,
      List.append_assoc] <;>
    first | rfl | simp only [← hbare, after]

theorem run_after (before : List Text) (s : State) (p : Text) :
    (s.after before).run p = (s.run p).map (after before) := by
  induction p generalizing s with
  | nil => rfl
  | cons c p ih =>
    rw [run_cons, run_cons, step_after]
    cases s.step c with
    | none => rfl
    | some t => exact ih t

theorem finish_after (before : List Text) (s : State) :
    (s.after before).finish = s.finish.map (before ++ ·) := by
  obtain ⟨done, cur, mode⟩ := s
  cases mode <;> simp [finish, after]

end State

/-- The bytes that quote, and newline, which is dropped after a backslash. -/
def isQuoting (c : UInt8) : Bool :=
  c = singleQuote || c = doubleQuote || c = backslash || c = newline

/-- The bytes that never vanish from the words. -/
def isContent (c : UInt8) : Bool := !isBlank c && !isQuoting c

/-- A word has begun. -/
def Mode.inWord : Mode → Bool
  | .blank | .escaped false => false
  | .plain | .escaped true | .single | .double | .doubleEscaped => true

/-- A backslash has been read that may still become a part of the word. -/
def Mode.pending : Mode → ℕ
  | .escaped _ | .doubleEscaped => 1
  | .blank | .plain | .single | .double => 0

namespace State

variable {s t : State} {c : UInt8} {p : Text}

/-- What a byte can do: complete a word, separate words, become a part of the word, alone or after a
backslash, or quote and vanish. -/
theorem step_cases (h : s.step c = some t) :
    (isBlank c = true ∧ t = ⟨s.done ++ [s.cur], [], .blank⟩) ∨
    (s.mode = .blank ∧ isBlank c = true ∧ t = s) ∨
    (∃ m : Mode, t = ⟨s.done, s.cur ++ [c], m⟩ ∧ m.inWord = true ∧ m.pending = 0) ∨
    (s.mode = .doubleEscaped ∧ t = ⟨s.done, s.cur ++ [backslash, c], .double⟩) ∨
    ∃ m : Mode, isQuoting c = true ∧ t = ⟨s.done, s.cur, m⟩ ∧
      (s.mode.inWord = true → m.inWord = true) ∧ (m = .blank → s.mode = .escaped false) ∧
      m.pending ≤ s.mode.pending + 1 := by
  obtain ⟨done, cur, mode⟩ := s
  cases mode <;> simp only [step, bare] at h <;> split_ifs at h <;> cases Option.some.inj h
  all_goals simp_all [isQuoting, Mode.inWord, Mode.pending]

/-- The bytes of all words so far. -/
def text (s : State) : Text := s.done.flatten ++ s.cur

/-- How many bytes have become a part of the words, or still may. -/
def weight (s : State) : ℕ := s.text.length + s.mode.pending

/-- Content goes into the words in order. -/
theorem content_step (h : s.step c = some t) :
    t.text.filter isContent = s.text.filter isContent ++ [c].filter isContent := by
  have hvanish (hc : isContent c = false) : [c].filter isContent = [] := by simp [hc]
  unfold text
  rcases step_cases h with ⟨hc, rfl⟩ | ⟨-, hc, rfl⟩ | ⟨m, rfl, -⟩ | ⟨-, rfl⟩ | ⟨m, hc, rfl, -⟩
  · rw [hvanish (by simp [isContent, hc])]
    simp
  · rw [hvanish (by simp [isContent, hc]), List.append_nil]
  · rw [← List.append_assoc, List.filter_append]
  · have hbackslash : [backslash, c].filter isContent = [c].filter isContent :=
      List.filter_cons_of_neg (by decide)
    rw [← List.append_assoc, List.filter_append, hbackslash]
  · rw [hvanish (by simp [isContent, hc]), List.append_nil]

theorem content_run (h : s.run p = some t) :
    t.text.filter isContent = s.text.filter isContent ++ p.filter isContent := by
  induction p generalizing s with
  | nil =>
    obtain rfl := Option.some.inj h
    rw [List.filter_nil, List.append_nil]
  | cons c p ih =>
    rw [run_cons] at h
    obtain ⟨u, hu, h⟩ := Option.bind_eq_some_iff.mp h
    rw [ih h, content_step hu, List.append_assoc, ← List.filter_append, List.singleton_append]

theorem weight_step (h : s.step c = some t) : t.weight ≤ s.weight + 1 := by
  unfold weight text
  rcases step_cases h with ⟨-, rfl⟩ | ⟨-, -, rfl⟩ | ⟨m, rfl, -, hm⟩ | ⟨hmode, rfl⟩ |
    ⟨m, -, rfl, -, -, hm⟩
  · simp only [List.flatten_append, List.length_append, List.flatten_singleton, List.length_nil,
      Mode.pending]
    omega
  · omega
  · simp only [List.length_append, List.length_singleton, hm]
    omega
  · simp only [List.length_append, List.length_cons, List.length_nil, hmode, Mode.pending]
    omega
  · simp only [List.length_append]
    omega

theorem weight_run (h : s.run p = some t) : t.weight ≤ s.weight + p.length := by
  induction p generalizing s with
  | nil =>
    obtain rfl := Option.some.inj h
    exact Nat.le_refl _
  | cons c p ih =>
    rw [run_cons] at h
    obtain ⟨u, hu, h⟩ := Option.bind_eq_some_iff.mp h
    have hstep := weight_step hu
    have hrest := ih h
    rw [List.length_cons]
    omega

/-- The complete words stay. -/
theorem done_run (h : s.run p = some t) : s.done <+: t.done := by
  induction p generalizing s with
  | nil =>
    obtain rfl := Option.some.inj h
    exact List.prefix_refl _
  | cons c p ih =>
    rw [run_cons] at h
    obtain ⟨u, hu, h⟩ := Option.bind_eq_some_iff.mp h
    refine List.IsPrefix.trans ?_ (ih h)
    rcases step_cases hu with ⟨-, rfl⟩ | ⟨-, -, rfl⟩ | ⟨m, rfl, -⟩ | ⟨-, rfl⟩ | ⟨m, -, rfl, -⟩
    · exact List.prefix_append _ _
    all_goals exact List.prefix_refl _

/-- A word that has begun is continued, and then completed. -/
theorem cur_run (hs : s.mode.inWord = true) (h : s.run p = some t) :
    (t.done = s.done ∧ s.cur <+: t.cur ∧ t.mode.inWord = true) ∨
      ∃ w, s.done ++ [w] <+: t.done ∧ s.cur <+: w := by
  induction p generalizing s with
  | nil =>
    obtain rfl := Option.some.inj h
    exact Or.inl ⟨rfl, List.prefix_refl _, hs⟩
  | cons c p ih =>
    rw [run_cons] at h
    obtain ⟨u, hu, h⟩ := Option.bind_eq_some_iff.mp h
    have hgrows (hdone : u.done = s.done) (hcur : s.cur <+: u.cur) (hu : u.mode.inWord = true) :
        (t.done = s.done ∧ s.cur <+: t.cur ∧ t.mode.inWord = true) ∨
          ∃ w, s.done ++ [w] <+: t.done ∧ s.cur <+: w := by
      have hrest := ih hu h
      rw [hdone] at hrest
      rcases hrest with ⟨hdone', hcur', hmode⟩ | ⟨w, hw, hcur'⟩
      · exact Or.inl ⟨hdone', hcur.trans hcur', hmode⟩
      · exact Or.inr ⟨w, hw, hcur.trans hcur'⟩
    rcases step_cases hu with ⟨-, rfl⟩ | ⟨hblank, -, -⟩ | ⟨m, rfl, hm, -⟩ | ⟨-, rfl⟩ |
      ⟨m, -, rfl, hm, -⟩
    · exact Or.inr ⟨s.cur, done_run h, List.prefix_refl _⟩
    · rw [hblank] at hs
      cases hs
    · exact hgrows rfl (List.prefix_append _ _) hm
    · exact hgrows rfl (List.prefix_append _ _) rfl
    · exact hgrows rfl (List.prefix_refl _) (hm hs)

theorem done_finish {ws : List Text} (h : t.finish = some ws) : t.done <+: ws := by
  unfold finish at h
  split at h
  · exact (Option.some.inj h) ▸ List.prefix_refl _
  · exact (Option.some.inj h) ▸ List.prefix_append _ _
  all_goals cases h

/-- The word that has begun is the first one after those that are complete. -/
theorem cur_finish (hs : s.mode.inWord = true) (h : s.run p = some t) {w : Text}
    {ws : List Text} (hfinish : t.finish = some (s.done ++ w :: ws)) : s.cur <+: w := by
  have hdone : t.done <+: s.done ++ w :: ws := done_finish hfinish
  rcases cur_run hs h with ⟨hsame, hcur, hmode⟩ | ⟨w', hw', hcur⟩
  · unfold finish at hfinish
    split at hfinish
    · rename_i hblank
      rw [hblank] at hmode
      cases hmode
    · rw [hsame] at hfinish
      have hword := List.append_cancel_left (Option.some.inj hfinish)
      rw [← (List.cons.inj hword).1]
      exact hcur
    all_goals cases hfinish
  · obtain ⟨rest, hrest⟩ := hw'.trans hdone
    rw [List.append_assoc, List.append_cancel_left_eq] at hrest
    rw [← (List.cons.inj hrest).1]
    exact hcur

/-- Between words there is no part of one. -/
theorem cur_of_not_inWord (hs : s.mode.inWord = false → s.cur = []) (h : s.run p = some t) :
    t.mode.inWord = false → t.cur = [] := by
  induction p generalizing s with
  | nil =>
    obtain rfl := Option.some.inj h
    exact hs
  | cons c p ih =>
    rw [run_cons] at h
    obtain ⟨u, hu, h⟩ := Option.bind_eq_some_iff.mp h
    refine ih ?_ h
    rcases step_cases hu with ⟨-, rfl⟩ | ⟨-, -, rfl⟩ | ⟨m, rfl, hm, -⟩ | ⟨-, rfl⟩ |
      ⟨m, -, rfl, hm, -⟩
    · exact fun _ => rfl
    · exact hs
    · intro hnot
      cases hm.symm.trans hnot
    · intro hnot
      cases hnot
    · intro hnot
      apply hs
      by_contra hin
      rw [Bool.not_eq_false] at hin
      cases (hm hin).symm.trans hnot

end State

/-! ### Texts that quotes keep, and texts that need none -/

/-- Between double quotes, with whether a backslash comes before. -/
def quoteMode (pending : Bool) : Mode := if pending then .doubleEscaped else .double

/-- The byte is kept between double quotes, with whether a backslash comes before. -/
def keeps (pending : Bool) (c : UInt8) : Bool :=
  !(isExpansion c || c = doubleQuote || pending && (c = backslash || c = newline))

def quotableFrom : Bool → Text → Bool
  | pending, [] => !pending
  | pending, c :: p => keeps pending c && quotableFrom (c = backslash) p

/-- Double quotes keep the text as it is: it has no `NUL`, `$`, backquote or double quote, and after
each backslash there is another byte, which is neither a backslash nor newline. -/
def Quotable (p : Text) : Prop := quotableFrom false p = true

instance : DecidablePred Quotable := fun p =>
  inferInstanceAs (Decidable (quotableFrom false p = true))

/-- The byte stands for itself without quotes. -/
def isLiteral (c : UInt8) : Bool := !(isSpecial c || isBlank c || isQuoting c)

/-- The text is a word without quotes. -/
def Bare (p : Text) : Prop :=
  p ≠ [] ∧ (∀ c ∈ p.head?, isStartSpecial c = false) ∧ ∀ c ∈ p, isLiteral c = true

theorem bare_iff (p : Text) : Bare p ↔
    p ≠ [] ∧ (p.head?.all fun c => !isStartSpecial c) = true ∧ p.all isLiteral = true := by
  rw [Bare, List.all_eq_true]
  cases p <;> simp

instance : DecidablePred Bare := fun p => decidable_of_iff _ (bare_iff p).symm

namespace State

variable {t : State} {c : UInt8} {p : Text}

/-- A byte that is kept between double quotes. -/
theorem step_of_keeps (done : List Text) (cur : Text) {pending : Bool}
    (h : keeps pending c = true) : step ⟨done, cur, quoteMode pending⟩ c =
      some ⟨done, if c = backslash then cur
        else cur ++ (if pending then [backslash, c] else [c]), quoteMode (c = backslash)⟩ := by
  simp only [keeps, Bool.not_eq_true', Bool.or_eq_false_iff, Bool.and_eq_false_iff,
    decide_eq_false_iff_not] at h
  obtain ⟨⟨hexpansion, hquote⟩, hpending⟩ := h
  cases pending with
  | false =>
    by_cases hbackslash : c = backslash
    · subst hbackslash
      rfl
    · simp [quoteMode, step, hexpansion, hquote, hbackslash]
  | true =>
    have hkept : c ≠ backslash ∧ c ≠ newline := by simpa using hpending
    have hnul : c ≠ 0x00 := by
      rintro rfl
      cases hexpansion
    simp [quoteMode, step, hexpansion, hquote, hkept, hnul]

/-- A byte that is not kept there makes the words shorter than the text. -/
theorem weight_of_not_keeps {done : List Text} {cur : Text} {pending : Bool}
    (h : keeps pending c = false) (ht : step ⟨done, cur, quoteMode pending⟩ c = some t) :
    t.weight ≤ (⟨done, cur, quoteMode pending⟩ : State).weight := by
  cases pending with
  | false =>
    simp only [quoteMode, Bool.false_eq_true, ↓reduceIte, step] at ht
    split_ifs at ht with hexpansion hquote hbackslash
    · obtain rfl := Option.some.inj ht
      exact Nat.le_refl _
    all_goals simp_all [keeps]
  | true =>
    simp only [quoteMode, ↓reduceIte, step] at ht
    split_ifs at ht with hnul hnewline hspecial
    · obtain rfl := Option.some.inj ht
      exact Nat.le_succ _
    · obtain rfl := Option.some.inj ht
      simp only [weight, text, quoteMode, Mode.pending, List.length_append, List.length_singleton,
        ↓reduceIte]
      omega
    · simp_all [keeps]

/-- What is pending after a backslash. -/
def held (pending : Bool) : Text := if pending then [backslash] else []

theorem run_quotable {pending : Bool} (h : quotableFrom pending p = true) (done : List Text)
    (cur : Text) : run ⟨done, cur, quoteMode pending⟩ p =
      some ⟨done, cur ++ held pending ++ p, .double⟩ := by
  induction p generalizing pending cur with
  | nil =>
    obtain rfl : pending = false := by simpa [quotableFrom] using h
    simp [quoteMode, held]
  | cons c p ih =>
    rw [quotableFrom, Bool.and_eq_true] at h
    rw [run_cons, step_of_keeps done cur h.1, Option.bind_some, ih h.2]
    by_cases hbackslash : c = backslash
    · have hpending : pending = false := by
        have hkept := h.1
        simp only [keeps, hbackslash, Bool.not_eq_true', Bool.or_eq_false_iff] at hkept
        simpa using hkept.2
      simp [hbackslash, hpending, held]
    · cases pending <;> simp [hbackslash, held]

/-- Where the words get no shorter than a text between double quotes, it is kept, up to a backslash
that is pending. -/
theorem quotable_of_weight {pending : Bool} {done : List Text} {cur : Text}
    (h : run ⟨done, cur, quoteMode pending⟩ p = some t)
    (hweight : (⟨done, cur, quoteMode pending⟩ : State).weight + p.length ≤ t.weight) :
    t.done = done ∧ (t.mode = .double ∧ quotableFrom pending p = true ∨
      t.mode = .doubleEscaped) := by
  induction p generalizing pending cur with
  | nil =>
    obtain rfl := Option.some.inj h
    cases pending with
    | false => exact ⟨rfl, Or.inl ⟨rfl, rfl⟩⟩
    | true => exact ⟨rfl, Or.inr rfl⟩
  | cons c p ih =>
    rw [run_cons] at h
    obtain ⟨u, hu, h⟩ := Option.bind_eq_some_iff.mp h
    have hrest := weight_run h
    rw [List.length_cons] at hweight
    cases hkeeps : keeps pending c with
    | false =>
      have hlost := weight_of_not_keeps hkeeps hu
      omega
    | true =>
      have hstep := weight_step hu
      rw [step_of_keeps done cur hkeeps] at hu
      obtain rfl := Option.some.inj hu
      rw [quotableFrom, hkeeps, Bool.true_and]
      exact ih h (by omega)

theorem step_of_isLiteral {done : List Text} {cur : Text} {m : Mode} (hc : isLiteral c = true)
    (hm : m = .plain ∨ m = .blank ∧ isStartSpecial c = false) :
    step ⟨done, cur, m⟩ c = some ⟨done, cur ++ [c], .plain⟩ := by
  simp only [isLiteral, isQuoting, Bool.not_eq_true', Bool.or_eq_false_iff,
    decide_eq_false_iff_not] at hc
  obtain ⟨⟨hspecial, hblank⟩, ⟨⟨hsingle, hdouble⟩, hbackslash⟩, -⟩ := hc
  rcases hm with rfl | ⟨rfl, hstart⟩
  · simp [step, bare, hspecial, hblank, hsingle, hdouble, hbackslash]
  · simp [step, bare, hspecial, hblank, hsingle, hdouble, hbackslash, hstart]

theorem run_plain (h : ∀ c ∈ p, isLiteral c = true) (done : List Text) (cur : Text) :
    run ⟨done, cur, .plain⟩ p = some ⟨done, cur ++ p, .plain⟩ := by
  induction p generalizing cur with
  | nil => rw [run_nil, List.append_nil]
  | cons c p ih =>
    rw [List.forall_mem_cons] at h
    rw [run_cons, step_of_isLiteral h.1 (Or.inl rfl), Option.bind_some, ih h.2, List.append_assoc,
      List.singleton_append]

/-- Without quotes a byte is a literal, or a backslash, or makes the words shorter than the text. -/
theorem step_bare {done : List Text} {cur : Text} {m : Mode} (hm : m = .plain ∨ m = .blank)
    (h : step ⟨done, cur, m⟩ c = some t) :
    (isLiteral c = true ∧ (m = .blank → isStartSpecial c = false) ∧
      t = ⟨done, cur ++ [c], .plain⟩) ∨
    (∃ inWord, t = ⟨done, cur, .escaped inWord⟩) ∨
    t.weight ≤ (⟨done, cur, m⟩ : State).weight := by
  rcases hm with rfl | rfl <;> simp only [step, bare] at h <;> split_ifs at h <;>
    obtain rfl := Option.some.inj h
  all_goals simp_all [isLiteral, isQuoting, isSpecial, weight, text, Mode.pending]

/-- After a backslash without quotes the words are shorter than the text. -/
theorem step_escaped {done : List Text} {cur : Text} {inWord : Bool}
    (h : step ⟨done, cur, .escaped inWord⟩ c = some t) :
    t.weight ≤ (⟨done, cur, .escaped inWord⟩ : State).weight := by
  simp only [step] at h
  split_ifs at h <;> obtain rfl := Option.some.inj h
  all_goals simp [weight, text, Mode.pending, Nat.add_assoc]

/-- Where the words get no shorter than a text without quotes, it is literal, up to a backslash that
is pending. -/
theorem bare_of_weight {m : Mode} (hm : m = .plain ∨ m = .blank) {done : List Text} {cur : Text}
    (h : run ⟨done, cur, m⟩ p = some t)
    (hweight : (⟨done, cur, m⟩ : State).weight + p.length ≤ t.weight) :
    t.done = done ∧ ((∃ inWord, t.mode = .escaped inWord) ∨
      (∀ c ∈ p, isLiteral c = true) ∧
        (m = .blank → ∀ c ∈ p.head?, isStartSpecial c = false)) := by
  induction p generalizing m cur with
  | nil =>
    obtain rfl := Option.some.inj h
    exact ⟨rfl, Or.inr ⟨nofun, fun _ => nofun⟩⟩
  | cons c p ih =>
    rw [run_cons] at h
    obtain ⟨u, hu, h⟩ := Option.bind_eq_some_iff.mp h
    have hrest := weight_run h
    have hstep := weight_step hu
    rw [List.length_cons] at hweight
    rcases step_bare hm hu with ⟨hliteral, hstart, rfl⟩ | ⟨inWord, rfl⟩ | hlost
    · obtain ⟨hdone, hcase⟩ := ih (Or.inl rfl) h (by omega)
      refine ⟨hdone, hcase.imp_right fun hliterals => ⟨?_, fun hblank d hd => ?_⟩⟩
      · rw [List.forall_mem_cons]
        exact ⟨hliteral, hliterals.1⟩
      · obtain rfl := Option.some.inj hd
        exact hstart hblank
    · cases p with
      | nil =>
        obtain rfl := Option.some.inj h
        exact ⟨rfl, Or.inl ⟨inWord, rfl⟩⟩
      | cons d p =>
        rw [run_cons] at h
        obtain ⟨v, hv, h⟩ := Option.bind_eq_some_iff.mp h
        have hlost := step_escaped hv
        have hrest := weight_run h
        rw [List.length_cons] at hweight
        omega
    · omega

end State

section Placed

variable {before ws : List Text} {pre path rest : Text}

/-- What may come after a word: nothing, or an option. -/
def Options (rest : Text) : Prop := rest = [] ∨ ∃ q, rest = space :: 0x2D :: q

/-- A word that has begun, with all of the content of `path`, does not become `path` where more
content is quoted. -/
theorem not_finish_of_content {s t : State} (hs : s.mode.inWord = true) {q : Text}
    (hcontent : s.cur.filter isContent = path.filter isContent ++ [0x2D])
    (h : s.run q = some t) : t.finish ≠ some (s.done ++ path :: ws) := by
  intro hfinish
  have hprefix := (State.cur_finish hs h hfinish).filter isContent
  rw [hcontent] at hprefix
  have hlength := hprefix.length_le
  rw [List.length_append, List.length_singleton] at hlength
  omega

/-- An option that is read between quotes spoils the word. -/
theorem not_finish_of_quotes {s t : State} (hmode : s.mode = .single ∨ s.mode = .double)
    (hcontent : s.cur.filter isContent = path.filter isContent) (hrest : Options rest)
    (h : s.run rest = some t) : t.finish ≠ some (s.done ++ path :: ws) := by
  obtain ⟨done, cur, mode⟩ := s
  rcases hrest with rfl | ⟨q, rfl⟩
  · obtain rfl := Option.some.inj h
    rcases hmode with rfl | rfl <;> nofun
  · have hgrown : (cur ++ [space, 0x2D]).filter isContent = path.filter isContent ++ [0x2D] := by
      rw [List.filter_append, hcontent]
      rfl
    rcases hmode with rfl | rfl
    · have hrun : State.run ⟨done, cur ++ [space, 0x2D], .single⟩ q = some t := by
        simpa [State.run_cons, State.step, space, singleQuote] using h
      exact not_finish_of_content (s := ⟨done, cur ++ [space, 0x2D], .single⟩) rfl hgrown hrun
    · have hrun : State.run ⟨done, cur ++ [space, 0x2D], .double⟩ q = some t := by
        simpa [State.run_cons, State.step, space, doubleQuote, backslash, isExpansion] using h
      exact not_finish_of_content (s := ⟨done, cur ++ [space, 0x2D], .double⟩) rfl hgrown hrun

/-- Between words the options are read as on their own. -/
theorem finish_of_blank (hws : words rest = some ws) (done : List Text) :
    (State.run ⟨done, [], .blank⟩ rest).bind State.finish = some (done ++ ws) := by
  have hafter : (⟨done, [], .blank⟩ : State) = start.after done := by
    simp only [State.after, start, List.append_nil]
  obtain ⟨v, hv, hv'⟩ := Option.bind_eq_some_iff.mp hws
  rw [hafter, State.run_after, hv, Option.map_some, Option.bind_some, State.finish_after, hv',
    Option.map_some]

/-- After a complete word the options give their own words. -/
theorem finish_of_plain (hrest : Options rest) (hws : words rest = some ws) (done : List Text)
    (cur : Text) :
    (State.run ⟨done, cur, .plain⟩ rest).bind State.finish = some (done ++ cur :: ws) := by
  rcases hrest with rfl | ⟨q, rfl⟩
  · obtain rfl := Option.some.inj hws
    rfl
  · have hfirst : State.step ⟨done, cur, .plain⟩ space = some ⟨done ++ [cur], [], .blank⟩ := by
      simp [State.step, isBlank]
    have hstart : start.step space = some start := rfl
    rw [words, State.run_cons, hstart, Option.bind_some] at hws
    rw [State.run_cons, hfirst, Option.bind_some, List.append_cons done cur ws]
    exact finish_of_blank hws (done ++ [cur])

/-- The state after `path` where that becomes the word `path`: the word is not complete yet, and it
has all of the content. -/
theorem state_after_path {s t u : State} {q : Text} (hcur : s.cur = [])
    (hpending : s.mode.pending = 0) (ht : s.run path = some t)
    (hkept : s.weight + path.length ≤ t.weight → t.done = s.done) (hu : t.run q = some u)
    (hfinish : u.finish = some (s.done ++ path :: ws)) :
    t.done = s.done ∧ t.cur.filter isContent = path.filter isContent := by
  have hdone : t.done = s.done := by
    obtain ⟨completed, hcompleted⟩ := State.done_run ht
    cases completed with
    | nil => rw [← hcompleted, List.append_nil]
    | cons w completed =>
      -- the first word is `path`, which leaves no room for others
      apply hkept
      have hprefix := (State.done_run hu).trans (State.done_finish hfinish)
      rw [← hcompleted, List.prefix_append_right_inj, List.cons_prefix_cons] at hprefix
      have hlength := congrArg (fun l : List Text => l.flatten.length) hcompleted
      simp only [List.flatten_append, List.flatten_cons, List.length_append, hprefix.1] at hlength
      simp only [State.weight, State.text, List.length_append, hcur, List.length_nil, hpending]
      omega
  refine ⟨hdone, ?_⟩
  have hcontent := State.content_run ht
  rw [State.text, State.text, hdone, hcur, List.append_nil, List.filter_append] at hcontent
  exact List.append_cancel_left hcontent

/-- The text of a word that is followed by blanks or nothing. -/
theorem eq_of_finish_plain {done : List Text} {cur : Text} {u : State} (hrest : Options rest)
    (hws : words rest = some ws) (hu : State.run ⟨done, cur, .plain⟩ rest = some u)
    (hfinish : u.finish = some (done ++ path :: ws)) : cur = path := by
  have hplain := finish_of_plain hrest hws done cur
  rw [hu, Option.bind_some, hfinish] at hplain
  exact (List.cons.inj (List.append_cancel_left (Option.some.inj hplain))).1.symm

/-- The words of a command are those that its end is read to after the path. -/
theorem words_append_iff {s : State} (hpre : start.run pre = some s) (q : Text) (ws : List Text) :
    words (pre ++ (path ++ q)) = some ws ↔
      ∃ t, s.run path = some t ∧ (t.run q).bind State.finish = some ws := by
  unfold words
  rw [State.run_append, hpre, Option.bind_some, State.run_append, Option.bind_assoc]
  exact Option.bind_eq_some_iff

/-- Between double quotes a text is one word of the command, and the options are the others, exactly
if the quotes keep it. -/
theorem words_quoted_iff (hpre : start.run pre = some ⟨before, [], .double⟩)
    (hrest : Options rest) (hws : words rest = some ws) :
    words (pre ++ (path ++ doubleQuote :: rest)) = some (before ++ path :: ws) ↔
      Quotable path := by
  rw [words_append_iff hpre]
  constructor
  · intro ⟨t, ht, hend⟩
    obtain ⟨u, hu, hfinish⟩ := Option.bind_eq_some_iff.mp hend
    have hkept := @State.quotable_of_weight t path false before [] ht
    obtain ⟨hdone, hcontent⟩ := state_after_path rfl rfl ht (fun hw => (hkept hw).1) hu hfinish
    rw [State.run_cons] at hu
    obtain ⟨v, hv, hu⟩ := Option.bind_eq_some_iff.mp hu
    obtain ⟨done, cur, mode⟩ := t
    obtain rfl : done = before := hdone
    -- a quote that is a part of the word comes with an open quote
    have hopen (cur' : Text) (hcur' : cur'.filter isContent = cur.filter isContent) (m : Mode)
        (hm : m = .single ∨ m = .double) (hv : v = ⟨done, cur', m⟩) : Quotable path := by
      subst hv
      exact absurd hfinish (not_finish_of_quotes hm (hcur'.trans hcontent) hrest hu)
    have hquoted : (cur ++ [doubleQuote]).filter isContent = cur.filter isContent := by
      rw [List.filter_append]
      exact List.append_nil _
    -- a word that is as long as the text keeps it
    have hlong (hmode : mode = .double ∨ ∃ inWord, mode = .escaped inWord)
        (hlength : path.length ≤ cur.length + mode.pending) : Quotable path := by
      have hweight : (done.flatten ++ []).length + 0 + path.length ≤
          (done.flatten ++ cur).length + mode.pending := by
        rw [List.append_nil, List.length_append]
        omega
      obtain ⟨-, ⟨-, hquotable⟩ | hescaped⟩ := hkept hweight
      · exact hquotable
      · obtain rfl : mode = .doubleEscaped := hescaped
        rcases hmode with hmode | ⟨inWord, hmode⟩ <;> cases hmode
    cases mode with
    | blank => exact hopen cur rfl .double (Or.inr rfl) (Option.some.inj hv).symm
    | plain => exact hopen cur rfl .double (Or.inr rfl) (Option.some.inj hv).symm
    | single => exact hopen _ hquoted .single (Or.inl rfl) (Option.some.inj hv).symm
    | doubleEscaped => exact hopen _ hquoted .double (Or.inr rfl) (Option.some.inj hv).symm
    | double =>
      obtain rfl := Option.some.inj hv
      have hcur : cur = path := eq_of_finish_plain hrest hws hu hfinish
      exact hlong (Or.inl rfl) (by rw [hcur]; exact Nat.le_add_right _ _)
    | escaped inWord =>
      obtain rfl := Option.some.inj hv
      have hcur : cur ++ [doubleQuote] = path := eq_of_finish_plain hrest hws hu hfinish
      refine hlong (Or.inr ⟨inWord, rfl⟩) ?_
      rw [← hcur, List.length_append, List.length_singleton]
      exact Nat.le_refl _
  · intro h
    have hpath : State.run ⟨before, [], .double⟩ path = some ⟨before, path, .double⟩ :=
      State.run_quotable h before []
    have hquote : State.step ⟨before, path, .double⟩ doubleQuote = some ⟨before, path, .plain⟩ :=
      rfl
    refine ⟨⟨before, path, .double⟩, hpath, ?_⟩
    rw [State.run_cons, hquote, Option.bind_some]
    exact finish_of_plain hrest hws before path

/-- Without quotes a text is one word of the command, and the options are the others, exactly if it
is a word without quotes. -/
theorem words_bare_iff (hpre : start.run pre = some ⟨before, [], .blank⟩)
    (hrest : Options rest) (hws : words rest = some ws) :
    words (pre ++ (path ++ rest)) = some (before ++ path :: ws) ↔ Bare path := by
  rw [words_append_iff hpre]
  constructor
  · intro ⟨t, ht, hend⟩
    obtain ⟨u, hu, hfinish⟩ := Option.bind_eq_some_iff.mp hend
    have hkept := State.bare_of_weight (Or.inr rfl) ht
    obtain ⟨hdone, hcontent⟩ := state_after_path rfl rfl ht (fun hw => (hkept hw).1) hu hfinish
    have hbetween := State.cur_of_not_inWord (fun _ => rfl) ht
    obtain ⟨done, cur, mode⟩ := t
    obtain rfl : done = before := hdone
    -- a backslash takes the blank of the options into the word
    have hescape (cur' : Text) (m m' : Mode) (hm : m.inWord = true)
        (hcur' : cur'.filter isContent = cur.filter isContent)
        (hfinish' : (⟨done, cur, mode⟩ : State).finish = none)
        (hstep : State.step ⟨done, cur, mode⟩ space = some ⟨done, cur', m'⟩)
        (hstep' : State.step ⟨done, cur', m'⟩ 0x2D = some ⟨done, cur' ++ [0x2D], m⟩) : False := by
      rcases hrest with rfl | ⟨q, rfl⟩
      · obtain rfl := Option.some.inj hu
        cases hfinish.symm.trans hfinish'
      · rw [State.run_cons, hstep, Option.bind_some, State.run_cons, hstep', Option.bind_some] at hu
        refine not_finish_of_content (s := ⟨done, cur' ++ [0x2D], m⟩) hm ?_ hu hfinish
        rw [List.filter_append, hcur', hcontent]
        rfl
    cases mode with
    | plain =>
      have hcur : cur = path := eq_of_finish_plain hrest hws hu hfinish
      have hweight : (done.flatten ++ []).length + 0 + path.length ≤
          (done.flatten ++ cur).length + 0 := by
        rw [hcur, List.append_nil, List.length_append]
        omega
      obtain ⟨-, ⟨inWord, hmode⟩ | ⟨hliteral, hstart⟩⟩ := hkept hweight
      · cases hmode
      · refine ⟨?_, hstart rfl, hliteral⟩
        rintro rfl
        cases ht
    | blank =>
      -- `path` is no word at all
      obtain rfl : cur = [] := hbetween rfl
      have hfinish' := finish_of_blank hws done
      rw [hu, Option.bind_some, hfinish] at hfinish'
      have hlength := congrArg List.length (List.append_cancel_left (Option.some.inj hfinish'))
      rw [List.length_cons] at hlength
      omega
    | single => exact absurd hfinish (not_finish_of_quotes (Or.inl rfl) hcontent hrest hu)
    | double => exact absurd hfinish (not_finish_of_quotes (Or.inr rfl) hcontent hrest hu)
    | escaped inWord =>
      refine (hescape (cur ++ [space]) .plain .plain rfl ?_ rfl rfl rfl).elim
      rw [List.filter_append]
      exact List.append_nil _
    | doubleEscaped =>
      refine (hescape (cur ++ [backslash, space]) .double .double rfl ?_ rfl rfl rfl).elim
      rw [List.filter_append]
      exact List.append_nil _
  · rintro ⟨hne, hstart, hliteral⟩
    cases path with
    | nil => exact absurd rfl hne
    | cons c path =>
      rw [List.forall_mem_cons] at hliteral
      have hfirst : State.step ⟨before, [], .blank⟩ c = some ⟨before, [c], .plain⟩ :=
        State.step_of_isLiteral hliteral.1 (Or.inr ⟨rfl, hstart c rfl⟩)
      have hpath : State.run ⟨before, [], .blank⟩ (c :: path) =
          some ⟨before, c :: path, .plain⟩ := by
        rw [State.run_cons, hfirst, Option.bind_some, State.run_plain hliteral.2]
        rfl
      exact ⟨⟨before, c :: path, .plain⟩, hpath, finish_of_plain hrest hws before (c :: path)⟩

end Placed

end ShellWords
