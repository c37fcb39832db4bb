import Mathlib.Algebra.Order.Ring.Int
import Mathlib.Data.List.Basic
import Mathlib.Data.Rat.Defs
import OpenAPT.Json
import OpenAPT.Lib.Delimited
import OpenAPT.Lib.KeyedList
import OpenAPT.Lib.Strtod

/-! `parse_output`, and what it makes of the report of a solution. Each line is kept under the part
before its first colon, without blanks and punctuation. -/
namespace OpenAPT.Astrometry

/-- The numbers of type `double`: zero, and what a numeral is rounded to, if it is in range. -/
structure Doubles (D : Type) where
  zero : D
  ofNumeral : Strtod.Numeral → Option D

structure SolveResult (D : Type) where
  ra : Bytes
  dec : Bytes
  fov_x : D
  fov_y : D
  rotation : D
  deriving DecidableEq

/-- `std::stod` throws where there is no number, and where it is out of range. -/
def stod {D : Type} (d : Doubles D) (s : Bytes) : Except StdException D :=
  match (Strtod.read s).bind d.ofNumeral with
  | some x => .ok x
  | none => .error ⟨bytes "stod"⟩

def isalnum (c : UInt8) : Bool :=
  (0x30 ≤ c && c ≤ 0x39) || (0x41 ≤ c && c ≤ 0x5A) || (0x61 ≤ c && c ≤ 0x7A)

/-- What comes before and after the first separator. -/
def cutAt (sep : Bytes) : Bytes → Option (Bytes × Bytes)
  | [] => none
  | c :: s =>
    if sep <+: c :: s then some ([], (c :: s).drop sep.length)
    else (cutAt sep s).map fun r => (c :: r.1, r.2)

/-- The key and the value of a line. -/
def entry (line : Bytes) : Bytes × Bytes :=
  let (key, value) := (cutAt (bytes ": ") line).getD (line, [])
  (key.filter isalnum, value)

/-- A later line replaces an earlier one with the same key. -/
def tokens (output : Bytes) : List (Bytes × Bytes) :=
  (Delimited.lines 0x0A output).foldl
    (fun tokens line => KeyedList.insert (entry line).1 (entry line).2 tokens) []

def centerKey : Bytes := bytes "FieldcenterRAHMSDecDMS"
def sizeKey : Bytes := bytes "Fieldsize"
def rotationKey : Bytes := bytes "Fieldrotationangleupisdegrees"

section Parse

variable {D : Type} (d : Doubles D)

/-- The texts `ra` and `dec`. -/
def readCenter (value : Option Bytes) : Bytes × Bytes :=
  (value.bind (cutAt (bytes ","))).getD ([], [])

/-- The numbers `fov_x` and `fov_y`. -/
def readSize (value : Option Bytes) : Except StdException (D × D) :=
  match value.bind (cutAt (bytes "x")) with
  | none => .ok (d.zero, d.zero)
  | some (x, y) => do
    let fov_x ← stod d x
    let fov_y ← stod d y
    .ok (fov_x, fov_y)

def readRotation : Option Bytes → Except StdException D
  | none => .ok d.zero
  | some value => stod d value

def parse_output (output : Bytes) : Except StdException (SolveResult D) := do
  let tokens := tokens output
  let (ra, dec) := readCenter (KeyedList.find? centerKey tokens)
  let (fov_x, fov_y) ← readSize d (KeyedList.find? sizeKey tokens)
  let rotation ← readRotation d (KeyedList.find? rotationKey tokens)
  .ok ⟨ra, dec, fov_x, fov_y, rotation⟩

/-- A number of type `double` as it is printed. -/
structure Number where
  written : Strtod.Written
  value : D
  reads : d.ofNumeral written.numeral = some value

/-- The solution that a report is about. -/
structure Report where
  ra : Bytes
  dec : Bytes
  width : Number d
  height : Number d
  rotation : Number d

end Parse

/-- A line of the output: one of the three of the report, or another one. -/
inductive Line
  | center
  | size
  | rotation
  | other (text : Bytes)
  deriving DecidableEq

/-- The texts of the lines that are not of the report. -/
def others (ls : List Line) : List Bytes :=
  ls.filterMap fun
    | .other text => some text
    | _ => none

/-- The value of the last line with the key. -/
def lastValue (key : Bytes) : List Bytes → Option Bytes
  | [] => none
  | line :: lines =>
    (lastValue key lines).or (if (entry line).1 = key then some (entry line).2 else none)

namespace Report

variable {D : Type} {d : Doubles D} (r : Report d)

def result : SolveResult D :=
  ⟨r.ra, r.dec, r.width.value, r.height.value, r.rotation.value⟩

def sizeText : Bytes :=
  r.width.written.text ++ bytes " x " ++ r.height.written.text ++ bytes " degrees"

def text : Line → Bytes
  | .center => bytes "Field center: (RA H:M:S, Dec D:M:S) = (" ++ r.ra ++ bytes ", " ++ r.dec ++
      bytes ")."
  | .size => bytes "Field size: " ++ r.sizeText
  | .rotation => bytes "Field rotation angle: up is " ++ r.rotation.written.text ++
      bytes " degrees E of N"
  | .other text => text

/-- The output has these lines, with all three of the report. -/
structure Printed (ls : List Line) (output : Bytes) : Prop where
  lines_eq : Delimited.lines 0x0A output = ls.map r.text
  center : .center ∈ ls
  size : .size ∈ ls
  rotation : .rotation ∈ ls

/-- The other lines say the center and the angle under the keys that are looked up, or these are
empty and zero and no other line says anything; and no other line after that of the size says
another one under its key. -/
structure SaidByOthers (ls : List Line) : Prop where
  center : readCenter (lastValue centerKey (others ls)) = (r.ra, r.dec)
  size : ∀ before after value, ls = before ++ .size :: after → .size ∉ after →
    lastValue sizeKey (others after) = some value →
      readSize d (some value) = .ok (r.width.value, r.height.value)
  rotation : readRotation d (lastValue rotationKey (others ls)) = .ok r.rotation.value

end Report

theorem cutAt_append {c : UInt8} {p a : Bytes} (ha : c ∉ a) (s : Bytes) :
    cutAt (c :: p) (a ++ ((c :: p) ++ s)) = some (a, s) := by
  induction a with
  | nil =>
    have hprefix : (c :: p) <+: c :: (p ++ s) := List.prefix_append (c :: p) s
    rw [List.nil_append, List.cons_append, cutAt, if_pos hprefix]
    simp
  | cons b a ih =>
    rw [List.mem_cons, not_or] at ha
    have hprefix : ¬(c :: p) <+: b :: (a ++ ((c :: p) ++ s)) := fun h =>
      ha.1 (List.cons_prefix_cons.mp h).1
    rw [List.cons_append, cutAt, if_neg hprefix, ih ha.2, Option.map_some]

theorem entry_label {label : Bytes} (hlabel : 0x3A ∉ label) (value : Bytes) :
    entry (label ++ (bytes ": " ++ value)) = (label.filter isalnum, value) := by
  have hcut : cutAt (bytes ": ") (label ++ (bytes ": " ++ value)) = some (label, value) :=
    cutAt_append hlabel value
  rw [entry, hcut]
  rfl

theorem lastValue_eq_none {key : Bytes} {lines : List Bytes}
    (h : ∀ line ∈ lines, (entry line).1 ≠ key) : lastValue key lines = none := by
  induction lines with
  | nil => rfl
  | cons line lines ih =>
    rw [List.forall_mem_cons] at h
    rw [lastValue, ih h.2, if_neg h.1, Option.none_or]

theorem lastValue_append (key : Bytes) (a b : List Bytes) :
    lastValue key (a ++ b) = (lastValue key b).or (lastValue key a) := by
  induction a with
  | nil => rw [List.nil_append, lastValue, Option.or_none]
  | cons line a ih => rw [List.cons_append, lastValue, ih, lastValue, Option.or_assoc]

/-- The last line with a key is the one that is found. -/
theorem find?_tokens (key output : Bytes) :
    KeyedList.find? key (tokens output) = lastValue key (Delimited.lines 0x0A output) := by
  unfold tokens
  induction Delimited.lines 0x0A output using List.reverseRecOn with
  | nil => rfl
  | append_singleton lines line ih =>
    rw [List.foldl_append, List.foldl_cons, List.foldl_nil, lastValue_append, lastValue, lastValue,
      Option.none_or, KeyedList.find?_insert, ih]
    -- the last line has the key, or the lines before it decide
    by_cases hkey : (entry line).1 = key
    · rw [if_pos hkey, if_pos hkey.symm, Option.some_or]
    · rw [if_neg hkey, if_neg (Ne.symm hkey), Option.none_or]

theorem parse_output_eq_ok_iff {D : Type} {d : Doubles D} {output : Bytes} {r : SolveResult D} :
    parse_output d output = .ok r ↔
      readCenter (KeyedList.find? centerKey (tokens output)) = (r.ra, r.dec) ∧
      readSize d (KeyedList.find? sizeKey (tokens output)) = .ok (r.fov_x, r.fov_y) ∧
      readRotation d (KeyedList.find? rotationKey (tokens output)) = .ok r.rotation := by
  unfold parse_output
  obtain ⟨ra, dec, fov_x, fov_y, rotation⟩ := r
  dsimp only
  cases readSize d (KeyedList.find? sizeKey (tokens output)) with
  | error e => simp [bind, Except.bind]
  | ok size =>
    cases readRotation d (KeyedList.find? rotationKey (tokens output)) with
    | error e => simp [bind, Except.bind]
    | ok angle => simp [bind, Except.bind, Prod.ext_iff, and_assoc]

namespace Report

variable {D : Type} {d : Doubles D} (r : Report d) {ls : List Line} {key output : Bytes}

/-- The line of the size is the only one of the report with a key that is looked up. -/
theorem entry_size : entry (r.text .size) = (sizeKey, r.sizeText) := by
  have htext : r.text .size = bytes "Field size" ++ (bytes ": " ++ r.sizeText) := rfl
  rw [htext, entry_label (by decide)]
  rfl

theorem key_center : (entry (r.text .center)).1 = bytes "Fieldcenter" := by
  have htext : r.text .center = bytes "Field center" ++ (bytes ": " ++
      (bytes "(RA H:M:S, Dec D:M:S) = (" ++ r.ra ++ bytes ", " ++ r.dec ++ bytes ").")) := rfl
  rw [htext, entry_label (by decide)]
  rfl

theorem key_rotation : (entry (r.text .rotation)).1 = bytes "Fieldrotationangle" := by
  have htext : r.text .rotation = bytes "Field rotation angle" ++ (bytes ": " ++
      (bytes "up is " ++ r.rotation.written.text ++ bytes " degrees E of N")) := rfl
  rw [htext, entry_label (by decide)]
  rfl

theorem lastValue_map_text (h : ∀ l ∈ ls, (∃ text, l = .other text) ∨ (entry (r.text l)).1 ≠ key) :
    lastValue key (ls.map r.text) = lastValue key (others ls) := by
  induction ls with
  | nil => rfl
  | cons l ls ih =>
    rw [List.forall_mem_cons] at h
    obtain ⟨hl, hls⟩ := h
    rw [List.map_cons, lastValue, ih hls]
    cases l with
    | other text => rfl
    | center | size | rotation =>
      have hkey := hl.resolve_left fun ⟨text, htext⟩ => nomatch htext
      rw [if_neg hkey, Option.or_none]
      rfl

/-- The center and the angle are not found in the lines of the report. -/
theorem lastValue_of_ne_size (hsize : key ≠ sizeKey) (hcenter : key ≠ bytes "Fieldcenter")
    (hrotation : key ≠ bytes "Fieldrotationangle") (ls : List Line) :
    lastValue key (ls.map r.text) = lastValue key (others ls) := by
  refine r.lastValue_map_text fun l _ => ?_
  cases l with
  | other text => exact Or.inl ⟨text, rfl⟩
  | center => exact Or.inr fun h => hcenter (h.symm.trans r.key_center)
  | rotation => exact Or.inr fun h => hrotation (h.symm.trans r.key_rotation)
  | size => exact Or.inr fun h => hsize (h.symm.trans (congrArg Prod.fst r.entry_size))

/-- The size is found in the line of the report, or in another one after it. -/
theorem lastValue_size {before after : List Line} (hafter : .size ∉ after) :
    lastValue sizeKey ((before ++ .size :: after).map r.text) =
      some ((lastValue sizeKey (others after)).getD r.sizeText) := by
  have hothers : lastValue sizeKey (after.map r.text) = lastValue sizeKey (others after) := by
    refine r.lastValue_map_text fun l hl => ?_
    cases l with
    | other text => exact Or.inl ⟨text, rfl⟩
    | center => exact Or.inr (by rw [key_center]; decide)
    | rotation => exact Or.inr (by rw [key_rotation]; decide)
    | size => exact absurd hl hafter
  rw [List.map_append, List.map_cons, lastValue_append, lastValue, hothers, r.entry_size,
    if_pos rfl]
  cases lastValue sizeKey (others after) <;> rfl

theorem stod_number (n : Number d) (rest : Bytes) :
    stod d (n.written.text ++ 0x20 :: rest) = .ok n.value := by
  rw [stod, n.written.read_text rest, Option.bind_some, n.reads]

/-- Both numbers of the size are read. -/
theorem readSize_sizeText :
    readSize d (some r.sizeText) = .ok (r.width.value, r.height.value) := by
  -- a number has no `x`, so the first one is the separator
  have hwidth : (0x78 : UInt8) ∉ r.width.written.text ++ [0x20] := by
    rw [List.mem_append, not_or]
    refine ⟨fun h => ?_, by decide⟩
    cases r.width.written.isPart_of_mem_text h
  have hsplit : r.sizeText = (r.width.written.text ++ [0x20]) ++
      (bytes "x" ++ (0x20 :: (r.height.written.text ++ bytes " degrees"))) := by
    simp [sizeText, bytes]
  have hcut : cutAt (bytes "x") r.sizeText = some (r.width.written.text ++ [0x20],
      0x20 :: (r.height.written.text ++ bytes " degrees")) := by
    rw [hsplit]
    exact cutAt_append hwidth _
  have hheight : stod d (0x20 :: (r.height.written.text ++ bytes " degrees")) =
      .ok r.height.value := by
    rw [stod, Strtod.read_space]
    exact stod_number r.height (bytes "degrees")
  rw [readSize, Option.bind_some, hcut]
  dsimp only
  rw [stod_number r.width [], hheight]
  rfl

theorem readSize_iff (hsize : .size ∈ ls) :
    readSize d (lastValue sizeKey (ls.map r.text)) = .ok (r.width.value, r.height.value) ↔
      ∀ before after value, ls = before ++ .size :: after → .size ∉ after →
        lastValue sizeKey (others after) = some value →
          readSize d (some value) = .ok (r.width.value, r.height.value) := by
  constructor
  · rintro h before after value rfl hafter hvalue
    rw [r.lastValue_size hafter, hvalue] at h
    exact h
  · intro h
    -- cut the lines at the last one of the size
    obtain ⟨after, before, hls, hafter⟩ := List.eq_append_cons_of_mem (List.mem_reverse.mpr hsize)
    rw [List.reverse_eq_iff, List.reverse_append, List.reverse_cons, List.append_assoc,
      List.singleton_append] at hls
    rw [← List.mem_reverse] at hafter
    rw [hls, r.lastValue_size hafter]
    cases hvalue : lastValue sizeKey (others after.reverse) with
    | none => exact r.readSize_sizeText
    | some value => exact h _ _ value hls hafter hvalue

/-- The solution of a report is recovered exactly if the other lines say what `parse_output` looks
for under its own keys. -/
theorem recovers_iff (h : r.Printed ls output) :
    parse_output d output = .ok r.result ↔ r.SaidByOthers ls := by
  have hcenter : lastValue centerKey (ls.map r.text) = lastValue centerKey (others ls) :=
    r.lastValue_of_ne_size (by decide) (by decide) (by decide) ls
  have hrotation : lastValue rotationKey (ls.map r.text) = lastValue rotationKey (others ls) :=
    r.lastValue_of_ne_size (by decide) (by decide) (by decide) ls
  rw [parse_output_eq_ok_iff, find?_tokens, find?_tokens, find?_tokens, h.lines_eq, hcenter,
    hrotation]
  constructor
  · rintro ⟨hra, hsize, hangle⟩
    exact ⟨hra, (r.readSize_iff h.size).mp hsize, hangle⟩
  · rintro ⟨hra, hsize, hangle⟩
    exact ⟨hra, (r.readSize_iff h.size).mpr hsize, hangle⟩

/-- Where no other line has one of the keys, there is no center and no angle. -/
theorem saidByOthers_iff_of_silent
    (hsilent : ∀ line ∈ others ls, (entry line).1 ∉ [centerKey, sizeKey, rotationKey]) :
    r.SaidByOthers ls ↔ r.ra = [] ∧ r.dec = [] ∧ r.rotation.value = d.zero := by
  have hnone (key : Bytes) (hkey : key ∈ [centerKey, sizeKey, rotationKey]) {lines : List Bytes}
      (hlines : lines ⊆ others ls) : lastValue key lines = none :=
    lastValue_eq_none fun line hline heq => hsilent line (hlines hline) (heq ▸ hkey)
  have hcenter := hnone centerKey (by decide) (List.Subset.refl (others ls))
  have hrotation := hnone rotationKey (by decide) (List.Subset.refl (others ls))
  constructor
  · rintro ⟨hra, -, hangle⟩
    rw [hcenter] at hra
    rw [hrotation] at hangle
    obtain ⟨hra, hdec⟩ := Prod.mk.inj hra
    exact ⟨hra.symm, hdec.symm, (Except.ok.inj hangle).symm⟩
  · rintro ⟨hra, hdec, hangle⟩
    refine ⟨?_, ?_, ?_⟩
    · rw [hcenter, hra, hdec]
      rfl
    · rintro before after value rfl - hvalue
      have hsubset : others after ⊆ others (before ++ .size :: after) := by
        rw [others, others, List.filterMap_append]
        exact List.subset_append_right _ _
      cases (hnone sizeKey (by decide) hsubset).symm.trans hvalue
    · rw [hrotation, hangle]
      rfl

end Report

/-- Numbers without rounding. -/
def exactly : Doubles ℚ where
  zero := 0
  ofNumeral
    | .finite negative 10 whole fraction exponent =>
      let n : ℤ := Decimals.natOf (whole ++ fraction) * 10 ^ exponent.toNat
      some (mkRat (if negative then -n else n) (10 ^ (fraction.length + (-exponent).toNat)))
    | _ => none

def natural (whole : Bytes) (hne : whole ≠ [])
    (hdigits : whole.all Readers.isDigit = true) : Number exactly where
  written := ⟨false, whole, [], none, hne, List.all_eq_true.mp hdigits, nofun, nofun⟩
  value := mkRat (Decimals.natOf whole) 1
  reads := by
    simp [Strtod.Written.numeral, Strtod.Written.exponentValue, exactly]

/-- One degree by two. -/
def report (ra dec : Bytes) (rotation : Number exactly) : Report exactly where
  ra := ra
  dec := dec
  width := natural (bytes "1") (by decide) (by decide)
  height := natural (bytes "2") (by decide) (by decide)
  rotation := rotation

def reportLines : List Line := [.center, .size, .rotation]

def reportOutput (r : Report exactly) : Bytes := Delimited.frames 0x0A (reportLines.map r.text)

theorem Report.recovers_nothing :
    let r := report [] [] (natural (bytes "0") (by decide) (by decide))
    parse_output exactly (reportOutput r) = .ok r.result := by
  intro r
  have hprinted : r.Printed reportLines (reportOutput r) :=
    ⟨by decide +kernel, by decide, by decide, by decide⟩
  have hsilent : ∀ line ∈ others reportLines,
      (entry line).1 ∉ [centerKey, sizeKey, rotationKey] := by decide
  refine (r.recovers_iff hprinted).mpr ((r.saidByOthers_iff_of_silent hsilent).mpr ⟨rfl, rfl, ?_⟩)
  decide +kernel

/-- The center and the angle of an ordinary report are not found. -/
theorem Report.not_recovers_report :
    let r := report (bytes "05:34:31") (bytes "+22:00:52")
      (natural (bytes "30") (by decide) (by decide))
    r.Printed reportLines (reportOutput r) ∧
      parse_output exactly (reportOutput r) ≠ .ok r.result := by
  intro r
  refine ⟨⟨by decide +kernel, by decide, by decide, by decide⟩, ?_⟩
  decide +kernel

end OpenAPT.Astrometry
