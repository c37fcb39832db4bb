import Mathlib.Data.List.Basic
import Mathlib.Tactic.Common
import OpenAPT.Lib.Regex

/-! Texts of regular expressions in the grammar of ECMAScript, as `std::regex` reads them: a scanner
that makes tokens of the bytes, and a parser with a stack of the groups that are open. What there is
of the grammar is sequences, alternatives, groups, `*` and `+`, the two assertions, classes and the
escapes of single characters. A text with anything else is refused, like one that is wrong. -/
namespace EcmaScript

abbrev Text := List UInt8

/-! ### The scanner -/

/-- What stands in a class. -/
inductive Item
  | one (c : UInt8)
  | range (first last : UInt8)
  deriving DecidableEq

def Item.has : Item → UInt8 → Bool
  | one c, x => x = c
  | range first last, x => first ≤ x && x ≤ last

inductive Token
  | chr (c : UInt8)
  | any
  | cls (negated : Bool) (items : List Item)
  | star
  | plus
  | caret
  | dollar
  | bar
  | opening
  | closing
  deriving DecidableEq

/-- A class that is read: the items, the character before the next one, and whether a hyphen has
come after it. -/
structure Class where
  negated : Bool
  items : List Item
  last : Option UInt8
  hyphen : Bool
  deriving DecidableEq

/-- A character, which may be the end of a range. Ranges are in ASCII: above it their order would
depend on the sign of `char`. -/
def Class.push (k : Class) (c : UInt8) : Option Class :=
  match k.last with
  | none => some { k with last := some c }
  | some a =>
    if k.hyphen then
      if a ≤ c ∧ c < 0x80 then some ⟨k.negated, k.items ++ [.range a c], none, false⟩ else none
    else some { k with items := k.items ++ [.one a], last := some c }

/-- A hyphen after a character may begin a range. -/
def Class.pushHyphen (k : Class) : Option Class :=
  if k.last.isSome && !k.hyphen then some { k with hyphen := true } else k.push 0x2D

def Class.close (k : Class) : Token :=
  .cls k.negated (k.items ++ (k.last.map Item.one).toList ++ if k.hyphen then [.one 0x2D] else [])

inductive Mode
  | top
  | escape
  | clsStart
  | cls (k : Class)
  | clsEscape (k : Class)
  | clsOpening (k : Class)
  deriving DecidableEq

def isAlnum (c : UInt8) : Bool :=
  (0x30 ≤ c && c ≤ 0x39) || (0x41 ≤ c && c ≤ 0x5A) || (0x61 ≤ c && c ≤ 0x7A)

/-- The character that a backslash and `c` stand for: what is no letter or digit stands for
itself. -/
def escaped (c : UInt8) : Option UInt8 :=
  if !isAlnum c then some c
  else if c = 0x6E then some 0x0A
  else if c = 0x72 then some 0x0D
  else if c = 0x74 then some 0x09
  else if c = 0x76 then some 0x0B
  else if c = 0x66 then some 0x0C
  else none

/-- A character in a class. A bracket may begin a named class, which is refused. -/
def clsStep (k : Class) (c : UInt8) : Option (Mode × List Token) :=
  if c = 0x5D then some (.top, [k.close])
  else if c = 0x5C then some (.clsEscape k, [])
  else if c = 0x5B then some (.clsOpening k, [])
  else if c = 0x2D then k.pushHyphen.map fun k => (.cls k, [])
  else (k.push c).map fun k => (.cls k, [])

def topStep (c : UInt8) : Option (Mode × List Token) :=
  if c = 0x5C then some (.escape, [])
  else if c = 0x5B then some (.clsStart, [])
  else if c = 0x2E then some (.top, [.any])
  else if c = 0x2A then some (.top, [.star])
  else if c = 0x2B then some (.top, [.plus])
  else if c = 0x5E then some (.top, [.caret])
  else if c = 0x24 then some (.top, [.dollar])
  else if c = 0x7C then some (.top, [.bar])
  else if c = 0x28 then some (.top, [.opening])
  else if c = 0x29 then some (.top, [.closing])
  else if c = 0x3F ∨ c = 0x7B ∨ c = 0x7D ∨ c = 0x5D then none
  else some (.top, [.chr c])

def step : Mode → UInt8 → Option (Mode × List Token)
  | .top, c => topStep c
  | .escape, c => (escaped c).map fun c => (.top, [.chr c])
  | .clsStart, c =>
    if c = 0x5E then some (.cls ⟨true, [], none, false⟩, []) else clsStep ⟨false, [], none, false⟩ c
  | .cls k, c => clsStep k c
  | .clsEscape k, c => (escaped c).bind fun c => (k.push c).map fun k => (.cls k, [])
  | .clsOpening k, c =>
    if c = 0x3A ∨ c = 0x2E ∨ c = 0x3D then none
    else (k.push 0x5B).bind fun k => clsStep k c

def scan : Mode → Text → Option (Mode × List Token)
  | m, [] => some (m, [])
  | m, c :: s =>
    (step m c).bind fun r => (scan r.1 s).map fun r' => (r'.1, r.2 ++ r'.2)

theorem scan_cons {m m' m'' : Mode} {c : UInt8} {s : Text} {ts ts' : List Token}
    (h : step m c = some (m', ts)) (h' : scan m' s = some (m'', ts')) :
    scan m (c :: s) = some (m'', ts ++ ts') := by
  rw [scan, h, Option.bind_some, h']
  rfl

/-- A text is scanned piece by piece. -/
theorem scan_append {m m' m'' : Mode} {s s' : Text} {ts ts' : List Token}
    (h : scan m s = some (m', ts)) (h' : scan m' s' = some (m'', ts')) :
    scan m (s ++ s') = some (m'', ts ++ ts') := by
  induction s generalizing m ts with
  | nil =>
    obtain ⟨rfl, rfl⟩ := Prod.mk.inj (Option.some.inj h)
    exact h'
  | cons c s ih =>
    rw [scan] at h
    obtain ⟨⟨m₁, ts₁⟩, hstep, hrest⟩ := Option.bind_eq_some_iff.mp h
    obtain ⟨⟨m₂, ts₂⟩, hscan, heq⟩ := Option.map_eq_some_iff.mp hrest
    obtain ⟨rfl, rfl⟩ := Prod.mk.inj heq
    rw [List.cons_append, List.append_assoc]
    exact scan_cons hstep (ih hscan)

/-! ### The parser -/

/-- A group that is open: its alternatives so far, and its last one from the last part on, with
whether a quantifier may follow the part. -/
structure Group where
  alternatives : List (Regex UInt8)
  parts : List (Regex UInt8 × Bool)

def sequence (parts : List (Regex UInt8 × Bool)) : Regex UInt8 :=
  (parts.reverse.map Prod.fst).foldr .seq .eps

def Group.regex (g : Group) : Regex UInt8 :=
  g.alternatives.foldr .alt (sequence g.parts)

def Group.push (g : Group) (a : Regex UInt8) (quantifiable : Bool) : Group :=
  { g with parts := (a, quantifiable) :: g.parts }

/-- A line does not end within what a dot takes. -/
def notLineEnd (c : UInt8) : Bool := c ≠ 0x0A && c ≠ 0x0D

def single (c : UInt8) : Regex UInt8 := .cls fun x => x = c

def ofItems (negated : Bool) (items : List Item) : Regex UInt8 :=
  .cls fun x => items.any (·.has x) != negated

def quantify (q : Regex UInt8 → Regex UInt8) (g : Group) : Option Group :=
  match g.parts with
  | (a, true) :: parts => some { g with parts := (q a, true) :: parts }
  | _ => none

def parseStep : List Group → Token → Option (List Group)
  | [], _ => none
  | g :: gs, .chr c => some (g.push (single c) true :: gs)
  | g :: gs, .any => some (g.push (.cls notLineEnd) true :: gs)
  | g :: gs, .cls negated items => some (g.push (ofItems negated items) true :: gs)
  | g :: gs, .star => (quantify .star g).map (· :: gs)
  | g :: gs, .plus => (quantify (fun a => .seq a (.star a)) g).map (· :: gs)
  | g :: gs, .caret => some (g.push .atBegin false :: gs)
  | g :: gs, .dollar => some (g.push .atEnd false :: gs)
  | g :: gs, .bar => some (⟨g.alternatives ++ [sequence g.parts], []⟩ :: gs)
  | g :: gs, .opening => some (⟨[], []⟩ :: g :: gs)
  | g :: outer :: gs, .closing => some (outer.push g.regex true :: gs)
  | [_], .closing => none

def parse (ts : List Token) : Option (Regex UInt8) :=
  match ts.foldlM parseStep [⟨[], []⟩] with
  | some [g] => some g.regex
  | _ => none

/-- The constructor of `std::regex`. -/
def compile (s : Text) : Option (Regex UInt8) :=
  match scan .top s with
  | some (.top, ts) => parse ts
  | _ => none

end EcmaScript
