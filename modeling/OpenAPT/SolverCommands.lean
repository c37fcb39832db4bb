import Mathlib.Data.List.Basic
import Mathlib.Data.List.Forall2
import OpenAPT.Astap
import OpenAPT.Json
import OpenAPT.Lib.Decimals
import OpenAPT.Lib.ShellModes

/-! The command lines for the two solvers, as the words that a shell reads in them. -/
namespace OpenAPT.Astrometry
open ShellWords ASTAP

def kSolveFieldPath : Bytes := bytes "/usr/local/astrometry/bin/solve-field"

/-- The arguments of `make_command`, the image apart. -/
structure Arguments (D : Type) where
  ra : Bytes
  dec : Bytes
  radius : D
  downsample : Int32
  depth : List Int32
  scale_low : D
  scale_high : D
  width : Int32
  height : Int32
  scale_units : Bytes
  overwrite : Bool
  no_plot : Bool
  verify : Bool
  debug : Bool
  resort : Bool
  _continue : Bool
  no_tweak : Bool

/-- An option with a text, left out where that is empty. -/
def textOption (name text : Bytes) : Bytes :=
  if text = [] then [] else name ++ bytes " \"" ++ text ++ bytes "\""

def numberOption (given : Bool) (name number : Bytes) : Bytes :=
  if given then name ++ bytes " " ++ number else []

def flagOption (given : Bool) (name : Bytes) : Bytes := if given then name else []

/-- The second depth is read without a check that there is one. -/
def depthOption : List Int32 → Option Bytes
  | [] => some []
  | [_] => none
  | d₀ :: d₁ :: _ => some (numberOption true (bytes " --depth")
      (Decimals.intText d₀.toInt ++ bytes "," ++ Decimals.intText d₁.toInt))

namespace Arguments

variable {D : Type}

/-- The options, with that of the depths. -/
def optionList (f : Floats D) (a : Arguments D) (depth : Bytes) : List Bytes :=
  [textOption (bytes " --ra") a.ra,
    textOption (bytes " --dec") a.dec,
    numberOption (f.lt (f.literal 0) a.radius) (bytes " --radius") (f.shown a.radius),
    numberOption (a.downsample ≠ 1) (bytes " --downsample") (Decimals.intText a.downsample.toInt),
    depth,
    numberOption (f.lt (f.literal 0) a.scale_low) (bytes " --scale-low") (f.shown a.scale_low),
    numberOption (f.lt (f.literal 0) a.scale_high) (bytes " --scale-high") (f.shown a.scale_high),
    numberOption (0 < a.width) (bytes " --width") (Decimals.intText a.width.toInt),
    numberOption (0 < a.height) (bytes " --height") (Decimals.intText a.height.toInt),
    textOption (bytes " --scale-units") a.scale_units,
    flagOption a.overwrite (bytes " --overwrite"),
    flagOption a.no_plot (bytes " --no-plot"),
    flagOption a.verify (bytes " --verify"),
    flagOption a.debug (bytes " --debug"),
    flagOption a.resort (bytes " --resort"),
    flagOption a._continue (bytes " --continue"),
    flagOption a.no_tweak (bytes " --no-tweak")]

def options (f : Floats D) (a : Arguments D) : Option Bytes :=
  (depthOption a.depth).map fun depth => (a.optionList f depth).flatten

/-- The arguments that come between double quotes are words of a simple command there. -/
def IsClosed (a : Arguments D) : Prop :=
  IsSimple ([a.ra, a.dec, a.scale_units].flatMap quoted)

end Arguments

section Commands

variable {D : Type}

/-- The command line, or `none` where the behaviour is not defined. -/
def make_command (f : Floats D) (image : Bytes) (a : Arguments D) :
    Option (Except StdException Bytes) :=
  if image = [] then some (.error ⟨bytes "Image file is empty"⟩)
  else (a.options f).map fun options =>
    .ok (kSolveFieldPath ++ bytes " \"" ++ image ++ bytes "\"" ++ options)

/-- The command of `make_command`, if there is one, is a simple one, with the image as one word; the
others are those of the program and of the options alone. -/
def SolveFieldKeeps (f : Floats D) (image : Bytes) (a : Arguments D) : Prop :=
  ∃ result, make_command f image a = some result ∧ ∀ command, result = .ok command →
    ∃ options after, a.options f = some options ∧ words options = some after ∧
      words command = some (kSolveFieldPath :: image :: after)

/-- The command of `execute_astap_command`, if there is one with an image, is a simple one, with the
image as one word; the others are those of the parts before and after it alone. -/
def AstapKeeps (e : AstapEnv D) (command : Bytes) (a : AstapArgs D) : Prop :=
  ∀ cmd, e.built command a = some cmd → a.image ≠ [] →
    ∃ before after, words (command ++ a.coordinates e.floats ++ bytes " -f") = some before ∧
      words a.updateOption = some after ∧ words cmd = some (before ++ a.image :: after)

/-- Both commands for an image keep its path as one word. -/
def KeepPath (e : AstapEnv D) (s : Arguments D) (command : Bytes) (a : AstapArgs D) : Prop :=
  SolveFieldKeeps e.floats a.image s ∧ AstapKeeps e command a

end Commands

/-- An option does not matter for whether a text is that of a simple command, up to `q`. -/
structure IsOption (p q : Text) : Prop where
  matches_ : Matches p q
  isSpaced : IsSpaced q
  begins : Options p

/-- The name of an option, after a blank. -/
def IsName (name : Bytes) : Prop := ∃ w, name = space :: 0x2D :: w ∧ w.all isLiteral = true

section Options

variable {name number text : Bytes} {given : Bool}

theorem IsName.bare {w : Text} (h : w.all isLiteral = true) : Bare (0x2D :: w) :=
  (bare_iff (0x2D :: w)).mpr ⟨List.cons_ne_nil _ _, rfl, h⟩

theorem isOption_nil : IsOption [] [] := ⟨Matches.nil, Or.inl rfl, Or.inl rfl⟩

theorem isOption_flag (hname : IsName name) : IsOption (flagOption given name) [] := by
  obtain ⟨w, rfl, hw⟩ := hname
  cases given with
  | false => exact isOption_nil
  | true => exact ⟨Matches.word (IsName.bare hw), Or.inl rfl, Or.inr ⟨w, rfl⟩⟩

theorem isOption_number (hname : IsName name) (hnumber : Bare number) :
    IsOption (numberOption given name number) [] := by
  obtain ⟨w, rfl, hw⟩ := hname
  cases given with
  | false => exact isOption_nil
  | true =>
    have hsplit : numberOption true (space :: 0x2D :: w) number =
        (space :: 0x2D :: w) ++ (space :: number) := List.append_assoc _ _ _
    refine ⟨?_, Or.inl rfl, Or.inr ⟨w ++ (space :: number), hsplit⟩⟩
    rw [hsplit]
    exact (Matches.word (IsName.bare hw)).append (Matches.word hnumber) (Or.inl rfl)

theorem isOption_text (hname : IsName name) : IsOption (textOption name text) (quoted text) := by
  obtain ⟨w, rfl, hw⟩ := hname
  by_cases htext : text = []
  · rw [textOption, if_pos htext, htext]
    exact ⟨Matches.quoted_nil, Or.inr ⟨_, rfl⟩, Or.inl rfl⟩
  · have hsplit : textOption (space :: 0x2D :: w) text = (space :: 0x2D :: w) ++ quoted text := by
      rw [textOption, if_neg htext, List.append_assoc, List.append_assoc]
      rfl
    refine ⟨?_, Or.inr ⟨_, rfl⟩, Or.inr ⟨w ++ quoted text, hsplit⟩⟩
    rw [hsplit]
    exact (Matches.word (IsName.bare hw)).append (Matches.quoted text) (Or.inr ⟨_, rfl⟩)

theorem IsOption.flatten {ps qs : List Text} (h : List.Forall₂ IsOption ps qs) :
    IsOption ps.flatten qs.flatten := by
  induction h with
  | nil => exact isOption_nil
  | cons hp hps ih =>
    refine ⟨hp.matches_.append ih.matches_ ih.isSpaced, ?_, ?_⟩
    · rcases hp.isSpaced with rfl | ⟨q, rfl⟩
      · exact ih.isSpaced
      · exact Or.inr ⟨_, rfl⟩
    · rcases hp.begins with rfl | ⟨q, rfl⟩
      · exact ih.begins
      · exact Or.inr ⟨_, rfl⟩

end Options

theorem isLiteral_of_isDigit : ∀ b : UInt8, Readers.isDigit b = true → isLiteral b = true :=
  Readers.forall_byte (by decide +kernel)

theorem bare_natText (n : ℕ) : Bare (Decimals.natText n) := by
  refine ⟨Decimals.natText_ne_nil n, fun c hc => ?_,
    fun c hc => isLiteral_of_isDigit c (Decimals.isDigit_natText n c hc)⟩
  have hdigit := Decimals.isDigit_natText n c (List.mem_of_mem_head? hc)
  by_contra hstart
  rw [Bool.not_eq_false, isStartSpecial, Bool.or_eq_true, decide_eq_true_eq,
    decide_eq_true_eq] at hstart
  rcases hstart with rfl | rfl <;> cases hdigit

theorem bare_intText (i : ℤ) : Bare (Decimals.intText i) := by
  cases i with
  | ofNat n => exact bare_natText n
  | negSucc n => exact IsName.bare (List.all_eq_true.mpr (bare_natText (n + 1)).2.2)

/-- The second depth comes right after the first. -/
theorem bare_depths (i j : ℤ) : Bare (Decimals.intText i ++ bytes "," ++ Decimals.intText j) := by
  obtain ⟨hne, hstart, hliteral⟩ := bare_intText i
  refine ⟨?_, ?_, ?_⟩
  · rw [List.append_assoc]
    exact List.append_ne_nil_of_left_ne_nil hne _
  · rw [List.append_assoc, List.head?_append_of_ne_nil _ hne]
    exact hstart
  · intro c hc
    rw [List.mem_append, List.mem_append] at hc
    rcases hc with (hc | hc) | hc
    · exact hliteral c hc
    · obtain rfl : c = 0x2C := List.mem_singleton.mp hc
      rfl
    · exact (bare_intText j).2.2 c hc

theorem isOption_depth {depth : List Int32} {option : Bytes} (h : depthOption depth = some option) :
    IsOption option [] := by
  match depth, h with
  | [], h =>
    obtain rfl := Option.some.inj h
    exact isOption_nil
  | d₀ :: d₁ :: _, h =>
    obtain rfl := Option.some.inj h
    exact isOption_number ⟨_, rfl, by decide⟩ (bare_depths _ _)

theorem depthOption_eq_none_iff (depth : List Int32) :
    depthOption depth = none ↔ depth.length = 1 := by
  match depth with
  | [] => decide
  | [_] => simp [depthOption]
  | _ :: _ :: _ => simp [depthOption]

namespace Arguments

variable {D : Type} {f : Floats D} {a : Arguments D} {options : Bytes}

theorem options_eq_none_iff : a.options f = none ↔ a.depth.length = 1 := by
  rw [Arguments.options, Option.map_eq_none_iff, depthOption_eq_none_iff]

/-- Only the texts between quotes matter. -/
theorem isOption_options (h : a.options f = some options) :
    IsOption options ([a.ra, a.dec, a.scale_units].flatMap quoted) := by
  obtain ⟨depth, hdepth, rfl⟩ := Option.map_eq_some_iff.mp h
  have hlist : List.Forall₂ IsOption (a.optionList f depth)
      [quoted a.ra, quoted a.dec, [], [], [], [], [], [], [], quoted a.scale_units, [], [], [], [],
        [], [], []] := by
    refine .cons (isOption_text ⟨_, rfl, by decide⟩) <|
      .cons (isOption_text ⟨_, rfl, by decide⟩) <|
      .cons (isOption_number ⟨_, rfl, by decide⟩ (f.bare_shown _)) <|
      .cons (isOption_number ⟨_, rfl, by decide⟩ (bare_intText _)) <|
      .cons (isOption_depth hdepth) <|
      .cons (isOption_number ⟨_, rfl, by decide⟩ (f.bare_shown _)) <|
      .cons (isOption_number ⟨_, rfl, by decide⟩ (f.bare_shown _)) <|
      .cons (isOption_number ⟨_, rfl, by decide⟩ (bare_intText _)) <|
      .cons (isOption_number ⟨_, rfl, by decide⟩ (bare_intText _)) <|
      .cons (isOption_text ⟨_, rfl, by decide⟩) <|
      .cons (isOption_flag ⟨_, rfl, by decide⟩) <|
      .cons (isOption_flag ⟨_, rfl, by decide⟩) <|
      .cons (isOption_flag ⟨_, rfl, by decide⟩) <|
      .cons (isOption_flag ⟨_, rfl, by decide⟩) <|
      .cons (isOption_flag ⟨_, rfl, by decide⟩) <|
      .cons (isOption_flag ⟨_, rfl, by decide⟩) <|
      .cons (isOption_flag ⟨_, rfl, by decide⟩) .nil
  simpa using IsOption.flatten hlist

end Arguments

section Keeps

variable {D : Type} {f : Floats D} {image : Bytes} {s : Arguments D}

theorem run_kSolveFieldPath :
    start.run (kSolveFieldPath ++ bytes " \"") = some ⟨[kSolveFieldPath], [], .double⟩ := by
  decide +kernel

/-- Between double quotes a path is kept exactly if it is quotable. -/
theorem solveFieldKeeps_iff : SolveFieldKeeps f image s ↔
    (image ≠ [] → Quotable image ∧ s.depth.length ≠ 1 ∧ s.IsClosed) := by
  unfold SolveFieldKeeps make_command
  by_cases himage : image = []
  · rw [if_pos himage]
    refine ⟨fun _ hne => absurd himage hne, fun _ => ⟨_, rfl, fun command hcommand => ?_⟩⟩
    cases hcommand
  · rw [if_neg himage, forall_prop_of_true himage, Ne, ← s.options_eq_none_iff (f := f)]
    cases hoptions : s.options f with
    | none => simp
    | some options =>
      -- the options come after the closing quote and begin with a blank
      have hoption := s.isOption_options hoptions
      have hcommand : kSolveFieldPath ++ bytes " \"" ++ image ++ bytes "\"" ++ options =
          kSolveFieldPath ++ bytes " \"" ++ (image ++ doubleQuote :: options) := by
        rw [List.append_assoc, List.append_assoc]
        rfl
      have hwords {after : List Text} (hafter : words options = some after) :
          words (kSolveFieldPath ++ bytes " \"" ++ (image ++ doubleQuote :: options)) =
            some (kSolveFieldPath :: image :: after) ↔ Quotable image :=
        words_quoted_iff run_kSolveFieldPath hoption.begins hafter
      rw [Option.map_some, hcommand, Arguments.IsClosed, ← hoption.matches_.isSimple_iff]
      constructor
      · rintro ⟨result, hresult, hkeeps⟩
        obtain ⟨options', after, hoptions', hafter, hcommand'⟩ :=
          hkeeps _ (Option.some.inj hresult).symm
        obtain rfl := Option.some.inj hoptions'
        exact ⟨(hwords hafter).mp hcommand', Option.some_ne_none _, after, hafter⟩
      · rintro ⟨hquotable, -, after, hafter⟩
        refine ⟨_, rfl, fun command hcommand' => ?_⟩
        cases hcommand'
        exact ⟨options, after, rfl, hafter, (hwords hafter).mpr hquotable⟩

variable {e : AstapEnv D} {command : Bytes} {a : AstapArgs D}

/-- The words before the path. -/
def wordsBefore (f : Floats D) (a : AstapArgs D) : List Text :=
  (if f.eq a.ra (f.literal 0) then [] else [bytes "-ra", f.to_string a.ra]) ++
  (if f.eq a.dec (f.literal 0) then []
    else [bytes "-spd", f.to_string (f.add a.dec (f.literal 90))]) ++
  (if f.eq a.fov (f.literal 0) then [] else [bytes "-fov", f.to_string a.fov]) ++ [bytes "-f"]

theorem spaced_wordsBefore : spaced (wordsBefore f a) = a.coordinates f ++ bytes " -f" := by
  unfold wordsBefore AstapArgs.coordinates
  split_ifs <;> simp [spaced, bytes, space]

theorem bare_wordsBefore : ∀ w ∈ wordsBefore f a, Bare w := by
  have hpair (given : Prop) [Decidable given] {name number : Text} (hname : Bare name)
      (hnumber : Bare number) : ∀ w ∈ (if given then [] else [name, number]), Bare w := by
    intro w hw
    split_ifs at hw
    · cases hw
    · rcases List.mem_pair.mp hw with rfl | rfl
      · exact hname
      · exact hnumber
  unfold wordsBefore
  intro w hw
  rw [List.mem_append, List.mem_append, List.mem_append, List.mem_singleton] at hw
  rcases hw with ((hw | hw) | hw) | rfl
  · exact hpair _ (by decide) (f.bare_to_string _) w hw
  · exact hpair _ (by decide) (f.bare_to_string _) w hw
  · exact hpair _ (by decide) (f.bare_to_string _) w hw
  · decide

theorem options_updateOption (a : AstapArgs D) :
    Options a.updateOption ∧ IsSimple a.updateOption := by
  unfold AstapArgs.updateOption
  split_ifs
  · exact ⟨Or.inr ⟨_, rfl⟩, [bytes "-update"], by decide +kernel⟩
  · exact ⟨Or.inl rfl, [], rfl⟩

/-- Without quotes a path is kept exactly if it is a word as it is. -/
theorem astapKeeps_iff : AstapKeeps e command a ↔
    (e.accepts a = true → a.image ≠ [] → Bare a.image ∧ IsSimple (command ++ [space])) := by
  unfold AstapKeeps AstapEnv.built
  by_cases haccepts : e.accepts a = true
  · rw [if_pos haccepts, forall_prop_of_true haccepts]
    by_cases himage : a.image = []
    · exact ⟨fun _ hne => absurd himage hne, fun _ _ _ hne => absurd himage hne⟩
    · rw [forall_prop_of_true himage]
      obtain ⟨hupdate, after, hafter⟩ := options_updateOption a
      -- the words before the path need no quotes, so only the end of the name matters
      have hflags : IsSimple (command ++ a.coordinates e.floats ++ bytes " -f") ↔
          IsSimple (command ++ [space]) := by
        rw [List.append_assoc, ← spaced_wordsBefore]
        exact isSimple_append_spaced_iff (List.append_ne_nil_of_right_ne_nil _ (by decide))
          bare_wordsBefore
      have hcmd : a.commandLine e.floats command =
          command ++ a.coordinates e.floats ++ bytes " -f" ++ [space] ++
            (a.image ++ a.updateOption) := by
        rw [AstapArgs.commandLine, if_neg himage]
        simp [bytes, space]
      have hwords {before : List Text}
          (hbefore : words (command ++ a.coordinates e.floats ++ bytes " -f") = some before) :
          words (command ++ a.coordinates e.floats ++ bytes " -f" ++ [space] ++
            (a.image ++ a.updateOption)) = some (before ++ a.image :: after) ↔ Bare a.image :=
        words_bare_iff (run_space_of_words hbefore) hupdate hafter
      rw [← hflags, hcmd]
      constructor
      · intro hkeeps
        obtain ⟨before, after', hbefore, hafter', hcommand⟩ := hkeeps _ rfl himage
        obtain rfl := Option.some.inj (hafter.symm.trans hafter')
        exact ⟨(hwords hbefore).mp hcommand, before, hbefore⟩
      · rintro ⟨hbare, before, hbefore⟩ cmd hcommand -
        obtain rfl := Option.some.inj hcommand
        exact ⟨before, after, hbefore, hafter, (hwords hbefore).mpr hbare⟩
  · rw [if_neg haccepts]
    refine ⟨fun _ h => absurd h haccepts, fun _ cmd hnone => ?_⟩
    cases hnone

end Keeps

/-- A path is kept as one word exactly if double quotes keep it, there is not just one depth, the
texts in quotes are closed, and, where the second command is built, the path needs no quotes and the
name of the command is complete. -/
theorem keepPath_iff {D : Type} (e : AstapEnv D) (s : Arguments D) (command : Bytes)
    (a : AstapArgs D) : KeepPath e s command a ↔
      (a.image ≠ [] → Quotable a.image ∧ s.depth.length ≠ 1 ∧ s.IsClosed) ∧
      (e.accepts a = true → a.image ≠ [] → Bare a.image ∧ IsSimple (command ++ [space])) :=
  and_congr solveFieldKeeps_iff astapKeeps_iff

/-- No options, but for the depths. -/
def plainArguments (depth : List Int32) : Arguments ℚ :=
  ⟨[], [], 0, 1, depth, 0, 0, 0, 0, [], false, false, false, false, false, false, false⟩

/-- A path with a command substitution is not kept. -/
theorem not_keepPath_substitution : ¬KeepPath AstapEnv.solved (plainArguments []) (bytes "astap")
    ⟨0, 0, 1, false, bytes "m$(reboot).fits"⟩ := by
  rintro ⟨⟨result, hresult, hkeeps⟩, -⟩
  obtain ⟨options, after, -, -, hwords⟩ := hkeeps _ (Option.some.inj hresult).symm
  have hnone : words (bytes
      "/usr/local/astrometry/bin/solve-field \"m$(reboot).fits\"") = none := by
    decide +kernel
  cases hnone.symm.trans hwords

end OpenAPT.Astrometry
