import OpenAPT.Bytes
import OpenAPT.Lib.EcmaScript
import OpenAPT.Lib.Readers

/-! `glob::translate`, which makes a regular expression of a pattern for file names, and the functions
that match names with it. -/
namespace OpenAPT

namespace Glob

open EcmaScript (Item)

/-! ### The translation -/

/-- `string_replace` of one character: only the first one is replaced. -/
def stringReplace (c : UInt8) (new : Bytes) : Bytes → Bytes
  | [] => []
  | x :: s => if x = c then new ++ s else x :: stringReplace c new s

def hasDoubleHyphen : Bytes → Bool
  | x :: y :: s => (x = 0x2D && y = 0x2D) || hasDoubleHyphen (y :: s)
  | _ => false

/-- The call of `regex_replace`. Its format has no `$`, so the four characters are inserted as they
are. -/
def escapeSetOperations (s : Bytes) : Bytes :=
  s.flatMap fun c => if c = 0x26 ∨ c = 0x7E ∨ c = 0x7C then bytes "\\\\\\1" else [c]

/-- What is put in brackets for `stuff`, or `none` where the behaviour is undefined: with a double
hyphen in it `pattern.find("-", k, j)` reads `j` characters of a literal that has one. -/
def bracket (stuff : Bytes) : Option Bytes :=
  if hasDoubleHyphen stuff then none
  else
    -- of several backslashes only the first one is doubled
    let stuff := escapeSetOperations (stringReplace 0x5C (bytes "\\\\") stuff)
    match stuff with
    | [] => some (bytes "[]")
    | c :: rest =>
      -- `[!` is the only negation; a caret gets two backslashes, and is a character then
      if c = 0x21 then some (bytes "[^" ++ rest ++ bytes "]")
      else if c = 0x5E ∨ c = 0x5B then some (bytes "[\\\\" ++ stuff ++ bytes "]")
      else some (bytes "[" ++ stuff ++ bytes "]")

/-- Where the bracket that was opened before `s` is closed. A bracket that comes first, or after an
exclamation mark, does not close it. -/
def closing (s : Bytes) : Option ℕ :=
  let j := if s.getD 0 0 = 0x21 then 1 else 0
  let j := if s.getD j 0 = 0x5D then j + 1 else j
  ((s.drop j).findIdx? (· = 0x5D)).map (j + ·)

def specialCharacters : Bytes := bytes "()[]\x7b\x7d?*+-|^$\\.&~# \t\n\r\x0b\x0c"

/-- The loop, with the number of characters that it skips: those of a class and the bracket after
it. -/
def translateFrom : ℕ → Bytes → Option Bytes
  | _, [] => some []
  | skip + 1, _ :: s => translateFrom skip s
  | 0, c :: s =>
    if c = 0x2A then (translateFrom 0 s).map (bytes ".*" ++ ·)
    else if c = 0x3F then (translateFrom 0 s).map (bytes "." ++ ·)
    else if c = 0x5B then
      match closing s with
      -- a bracket that nothing closes is a character
      | none => (translateFrom 0 s).map (bytes "\\[" ++ ·)
      | some j => (bracket (s.take j)).bind fun stuff => (translateFrom (j + 1) s).map (stuff ++ ·)
    else if c ∈ specialCharacters then (translateFrom 0 s).map ([0x5C, c] ++ ·)
    else (translateFrom 0 s).map ([c] ++ ·)

def translate (pattern : Bytes) : Option Bytes :=
  (translateFrom 0 pattern).map fun s => bytes "((" ++ s ++ bytes ")|[\\r\\n])$"

/-- `none` where the translation is undefined or the regular expression is refused. -/
def fnmatch (name pattern : Bytes) : Option Bool :=
  (translate pattern).bind fun s => (EcmaScript.compile s).map fun a => a.isMatch name

def filter (pattern : Bytes) : List Bytes → Option (List Bytes)
  | [] => some []
  | name :: names =>
    (fnmatch name pattern).bind fun b =>
      (filter pattern names).map fun result => if b then name :: result else result

/-! ### What a pattern means -/

/-- Parts of a pattern. -/
inductive Piece
  | many
  | one
  | lit (c : UInt8)
  | set (negated : Bool) (items : List Item)
  deriving DecidableEq

def itemText : Item → Bytes
  | .one c => [c]
  | .range first last => [first, 0x2D, last]

def Piece.text : Piece → Bytes
  | many => [0x2A]
  | one => [0x3F]
  | lit c => [c]
  | set negated items =>
    0x5B :: ((if negated then [0x21] else []) ++ items.flatMap itemText) ++ [0x5D]

def text (g : List Piece) : Bytes := g.flatMap Piece.text

/-- The names of a pattern. Stars and question marks do not match the end of a line. -/
def Names : List Piece → Bytes → Prop
  | [], s => s = []
  | .many :: g, s => ∃ u v, s = u ++ v ∧ (∀ c ∈ u, EcmaScript.notLineEnd c = true) ∧ Names g v
  | .one :: g, s => ∃ c v, s = c :: v ∧ EcmaScript.notLineEnd c = true ∧ Names g v
  | .lit c :: g, s => ∃ v, s = c :: v ∧ Names g v
  | .set negated items :: g, s =>
    ∃ c v, s = c :: v ∧ items.any (·.has c) = !negated ∧ Names g v

/-- A character that has no meaning in brackets, neither in a pattern nor in a regular
expression. -/
def plain (c : UInt8) : Bool := c ∉ bytes "\\[]!^-&~|"

def plainItem : Item → Bool
  | .one c => plain c
  | .range first last => plain first && plain last && first ≤ last && last < 0x80

/-- The pieces that a text is read as: the characters with a meaning are no literals, but a bracket
that is not closed is one; what is in brackets is plain. -/
def WellFormed : List Piece → Prop
  | [] => True
  | .many :: g => WellFormed g
  | .one :: g => WellFormed g
  | .lit c :: g => c ≠ 0x2A ∧ c ≠ 0x3F ∧ (c = 0x5B → 0x5D ∉ text g) ∧ WellFormed g
  | .set _ items :: g => items ≠ [] ∧ (∀ i ∈ items, plainItem i = true) ∧ WellFormed g

/-! ### The translation of a piece -/

/-- What is put in the regular expression. -/
def Piece.translation : Piece → Bytes
  | many => bytes ".*"
  | one => bytes "."
  | lit c => if c ∈ specialCharacters then [0x5C, c] else [c]
  | set negated items =>
    0x5B :: ((if negated then [0x5E] else []) ++ items.flatMap itemText) ++ [0x5D]

theorem translateFrom_skip (xs s : Bytes) : translateFrom xs.length (xs ++ s) = translateFrom 0 s := by
  induction xs with
  | nil => rfl
  | cons x xs ih => exact ih

theorem ne_of_plain {c d : UInt8} (h : plain c = true) (hd : plain d = false) : c ≠ d := by
  rintro rfl
  rw [h] at hd
  cases hd

def itemsText (items : List Item) : Bytes := items.flatMap itemText

theorem mem_itemsText {items : List Item} (h : ∀ i ∈ items, plainItem i = true) {c : UInt8}
    (hc : c ∈ itemsText items) : plain c = true ∨ c = 0x2D := by
  obtain ⟨i, hi, hc⟩ := List.mem_flatMap.mp hc
  have hplain := h i hi
  cases i with
  | one d =>
    rw [List.mem_singleton.mp hc]
    exact Or.inl hplain
  | range first last =>
    simp only [plainItem, Bool.and_eq_true] at hplain
    obtain ⟨⟨⟨hfirst, hlast⟩, -⟩, -⟩ := hplain
    simp only [itemText, List.mem_cons, List.not_mem_nil, or_false] at hc
    rcases hc with rfl | rfl | rfl
    · exact Or.inl hfirst
    · exact Or.inr rfl
    · exact Or.inl hlast

theorem exists_itemsText_eq_cons {items : List Item} (hne : items ≠ [])
    (h : ∀ i ∈ items, plainItem i = true) :
    ∃ c s, itemsText items = c :: s ∧ plain c = true := by
  match items, hne with
  | .one c :: items, _ => exact ⟨c, itemsText items, rfl, h _ List.mem_cons_self⟩
  | .range first last :: items, _ =>
    have hplain := h _ List.mem_cons_self
    simp only [plainItem, Bool.and_eq_true] at hplain
    exact ⟨first, 0x2D :: last :: itemsText items, rfl, hplain.1.1.1⟩

theorem hasDoubleHyphen_cons {c : UInt8} (hc : c ≠ 0x2D) (s : Bytes) :
    hasDoubleHyphen (c :: s) = hasDoubleHyphen s := by
  cases s with
  | nil => rfl
  | cons x s => rw [hasDoubleHyphen, decide_eq_false hc, Bool.false_and, Bool.false_or]

theorem hasDoubleHyphen_itemsText {items : List Item} (h : ∀ i ∈ items, plainItem i = true) :
    hasDoubleHyphen (itemsText items) = false := by
  have hhyphen : plain 0x2D = false := by decide
  induction items with
  | nil => rfl
  | cons i items ih =>
    have hplain := h i List.mem_cons_self
    have hrest := ih fun j hj => h j (List.mem_cons_of_mem i hj)
    cases i with
    | one c =>
      have hc := ne_of_plain (d := 0x2D) hplain hhyphen
      exact (hasDoubleHyphen_cons hc _).trans hrest
    -- the hyphen of a range stands between two plain characters
    | range first last =>
      simp only [plainItem, Bool.and_eq_true] at hplain
      have hfirst := ne_of_plain hplain.1.1.1 hhyphen
      have hlast := ne_of_plain hplain.1.1.2 hhyphen
      calc hasDoubleHyphen (first :: 0x2D :: last :: itemsText items)
          = hasDoubleHyphen (0x2D :: last :: itemsText items) := hasDoubleHyphen_cons hfirst _
        _ = hasDoubleHyphen (last :: itemsText items) := by
            rw [hasDoubleHyphen, decide_eq_false hlast, Bool.and_false, Bool.false_or]
        _ = false := (hasDoubleHyphen_cons hlast _).trans hrest

theorem stringReplace_of_not_mem {c : UInt8} {s : Bytes} (h : c ∉ s) (new : Bytes) :
    stringReplace c new s = s := by
  induction s with
  | nil => rfl
  | cons x s ih =>
    have hx : x ≠ c := fun heq => h (heq ▸ List.mem_cons_self)
    rw [stringReplace, if_neg hx, ih fun hc => h (List.mem_cons_of_mem x hc)]

theorem escapeSetOperations_of_forall {s : Bytes}
    (h : ∀ c ∈ s, c ≠ 0x26 ∧ c ≠ 0x7E ∧ c ≠ 0x7C) : escapeSetOperations s = s := by
  induction s with
  | nil => rfl
  | cons c s ih =>
    obtain ⟨hand, htilde, hbar⟩ := h c List.mem_cons_self
    have hc : ¬ (c = 0x26 ∨ c = 0x7E ∨ c = 0x7C) := by
      rintro (hc | hc | hc)
      · exact hand hc
      · exact htilde hc
      · exact hbar hc
    have hrest := ih fun d hd => h d (List.mem_cons_of_mem c hd)
    rw [escapeSetOperations] at hrest
    rw [escapeSetOperations, List.flatMap_cons, if_neg hc, hrest, List.singleton_append]

/-- What stands between the brackets of a class. -/
def stuff (negated : Bool) (items : List Item) : Bytes :=
  (if negated then [0x21] else []) ++ itemsText items

section Class

variable {items : List Item} (hne : items ≠ []) (h : ∀ i ∈ items, plainItem i = true)
  (negated : Bool)
include h

theorem ne_of_mem_stuff {c d : UInt8} (hc : c ∈ stuff negated items) (hd : plain d = false)
    (hhyphen : d ≠ 0x2D) (hmark : d ≠ 0x21) : c ≠ d := by
  rcases List.mem_append.mp hc with hc | hc
  · cases negated with
    | false => cases hc
    | true =>
      rw [List.mem_singleton.mp hc]
      exact hmark.symm
  · rcases mem_itemsText h hc with hplain | rfl
    · exact ne_of_plain hplain hd
    · exact hhyphen.symm

theorem hasDoubleHyphen_stuff : hasDoubleHyphen (stuff negated items) = false := by
  have hitems := hasDoubleHyphen_itemsText h
  cases negated with
  | false => exact hitems
  | true => exact (hasDoubleHyphen_cons (by decide) _).trans hitems

include hne

/-- Of plain items nothing is changed but the mark of a negated class. -/
theorem bracket_stuff :
    bracket (stuff negated items) = some (Piece.set negated items).translation := by
  obtain ⟨c, s, htext, hc⟩ := exists_itemsText_eq_cons hne h
  have hbackslash : 0x5C ∉ stuff negated items := fun hmem =>
    ne_of_mem_stuff h negated hmem (d := 0x5C) (by decide) (by decide) (by decide) rfl
  have hescape : escapeSetOperations (stuff negated items) = stuff negated items :=
    escapeSetOperations_of_forall fun c hmem =>
      ⟨ne_of_mem_stuff h negated hmem (by decide) (by decide) (by decide),
        ne_of_mem_stuff h negated hmem (by decide) (by decide) (by decide),
        ne_of_mem_stuff h negated hmem (by decide) (by decide) (by decide)⟩
  have hmark : c ≠ 0x21 := ne_of_plain hc (by decide)
  have hcaret : ¬ (c = 0x5E ∨ c = 0x5B) := by
    rintro (heq | heq)
    · exact ne_of_plain hc (by decide : plain 0x5E = false) heq
    · exact ne_of_plain hc (by decide : plain 0x5B = false) heq
  rw [bracket, hasDoubleHyphen_stuff h, stringReplace_of_not_mem hbackslash, hescape]
  cases negated with
  | false =>
    have hstuff : stuff false items = c :: s := htext
    simp only [hstuff, hmark, hcaret, Bool.false_eq_true, if_false]
    rw [Piece.translation, ← itemsText, htext]
    rfl
  | true => rfl

/-- The class is closed by the bracket after it. -/
theorem closing_stuff (rest : Bytes) :
    closing (stuff negated items ++ 0x5D :: rest) = some (stuff negated items).length := by
  obtain ⟨c, s, htext, hc⟩ := exists_itemsText_eq_cons hne h
  have hbracket (x : UInt8) (hx : x ∈ itemsText items) : x ≠ 0x5D := by
    rcases mem_itemsText h hx with hplain | rfl
    · exact ne_of_plain hplain (by decide)
    · decide
  have hmark : c ≠ 0x21 := ne_of_plain hc (by decide)
  have hclose : c ≠ 0x5D := ne_of_plain hc (by decide)
  have hfind : (itemsText items ++ 0x5D :: rest).findIdx? (· = 0x5D) =
      some (itemsText items).length := by
    rw [List.findIdx?_append, List.findIdx?_eq_none_iff.mpr fun x hx =>
      decide_eq_false (hbracket x hx), List.findIdx?_cons]
    simp
  cases negated with
  | false =>
    have hstuff : stuff false items = itemsText items := rfl
    have hfirst : (itemsText items ++ 0x5D :: rest).getD 0 0 = c := by rw [htext]; rfl
    simp only [closing, hstuff, hfirst, hmark, hclose, if_false, List.drop_zero, hfind,
      Option.map_some, Nat.zero_add]
  | true =>
    have hstuff : stuff true items = 0x21 :: itemsText items := rfl
    have hfirst : (0x21 :: itemsText items ++ 0x5D :: rest).getD 0 0 = 0x21 := rfl
    have hsecond : (0x21 :: itemsText items ++ 0x5D :: rest).getD 1 0 = c := by rw [htext]; rfl
    have hdrop : (0x21 :: itemsText items ++ 0x5D :: rest).drop 1 =
        itemsText items ++ 0x5D :: rest := rfl
    simp only [closing, hstuff, hfirst, if_true, hsecond, hclose, if_false, hdrop, hfind,
      Option.map_some, List.length_cons, Nat.add_comm]

end Class

theorem closing_eq_none {s : Bytes} (h : 0x5D ∉ s) : closing s = none := by
  have hfind (j : ℕ) : (s.drop j).findIdx? (· = 0x5D) = none := by
    rw [List.findIdx?_eq_none_iff]
    intro x hx
    exact decide_eq_false fun heq => h (heq ▸ List.mem_of_mem_drop hx)
  rw [closing, hfind, Option.map_none]

/-- Piece by piece. -/
theorem translateFrom_text {g : List Piece} (h : WellFormed g) :
    translateFrom 0 (text g) = some (g.flatMap Piece.translation) := by
  induction g with
  | nil => rfl
  | cons piece g ih =>
    cases piece with
    | many =>
      have hrest := ih h
      change (translateFrom 0 (text g)).map (bytes ".*" ++ ·) = _
      rw [hrest]
      rfl
    | one =>
      have hrest := ih h
      change (translateFrom 0 (text g)).map (bytes "." ++ ·) = _
      rw [hrest]
      rfl
    | lit c =>
      obtain ⟨hstar, hone, hopen, hg⟩ := h
      have hrest := ih hg
      have htext : text (.lit c :: g) = c :: text g := rfl
      have hflat : (Piece.lit c :: g).flatMap Piece.translation =
          (Piece.lit c).translation ++ g.flatMap Piece.translation := rfl
      rw [htext, hflat, translateFrom, if_neg hstar, if_neg hone, Piece.translation]
      split_ifs with hbracket hspecial hspecial
      · rw [closing_eq_none (hopen hbracket), hbracket]
        dsimp only
        rw [hrest]
        rfl
      · rw [hbracket] at hspecial
        exact absurd (by decide) hspecial
      · rw [hrest]
        rfl
      · rw [hrest]
        rfl
    | set negated items =>
      obtain ⟨hne, hplain, hg⟩ := h
      have htext : text (.set negated items :: g) =
          0x5B :: (stuff negated items ++ 0x5D :: text g) := by
        change (0x5B :: stuff negated items ++ [0x5D]) ++ text g = _
        rw [List.append_assoc, List.cons_append, List.singleton_append]
      -- the loop skips what it has put in brackets, and the bracket
      have hskip : translateFrom ((stuff negated items).length + 1)
          (stuff negated items ++ 0x5D :: text g) = translateFrom 0 (text g) := by
        have h := translateFrom_skip (stuff negated items ++ [0x5D]) (text g)
        rwa [List.length_append, List.length_singleton, List.append_assoc,
          List.singleton_append] at h
      rw [htext, translateFrom, if_neg (by decide), if_neg (by decide), if_pos rfl,
        closing_stuff hne hplain]
      dsimp only
      rw [List.take_left, bracket_stuff hne hplain, Option.bind_some, hskip, ih hg]
      rfl

/-! ### The regular expression of a piece -/

open EcmaScript (Token Mode scan scan_cons scan_append parseStep Group single ofItems notLineEnd)

def Piece.tokens : Piece → List Token
  | many => [.any, .star]
  | one => [.any]
  | lit c => [.chr c]
  | set negated items => [.cls negated items]

theorem topStep_of_not_special {c : UInt8} (h : c ∉ specialCharacters) :
    EcmaScript.topStep c = some (.top, [.chr c]) := by
  have hall := Readers.forall_byte
    (P := fun c => c ∉ specialCharacters → EcmaScript.topStep c = some (.top, [.chr c]))
    (by decide +kernel)
  exact hall c h

theorem escaped_of_special {c : UInt8} (h : c ∈ specialCharacters) :
    EcmaScript.escaped c = some c := by
  have hall := Readers.forall_byte
    (P := fun c => c ∈ specialCharacters → EcmaScript.escaped c = some c) (by decide +kernel)
  exact hall c h

/-- A plain character is pushed on a class. -/
theorem clsStep_of_plain {c : UInt8} (h : plain c = true) (k : EcmaScript.Class) :
    EcmaScript.clsStep k c = (k.push c).map fun k => (Mode.cls k, []) := by
  rw [EcmaScript.clsStep, if_neg (ne_of_plain h (by decide)), if_neg (ne_of_plain h (by decide)),
    if_neg (ne_of_plain h (by decide)), if_neg (ne_of_plain h (by decide))]

/-- The items with the character that is kept back. -/
def allItems (k : EcmaScript.Class) : List Item := k.items ++ (k.last.map Item.one).toList

theorem push_of_not_hyphen {k : EcmaScript.Class} (hk : k.hyphen = false) (c : UInt8) :
    ∃ k', k.push c = some k' ∧ k'.hyphen = false ∧ k'.negated = k.negated ∧ k'.last = some c ∧
      k'.items = allItems k := by
  cases hlast : k.last with
  | none =>
    refine ⟨{ k with last := some c }, ?_, hk, rfl, rfl, ?_⟩
    · rw [EcmaScript.Class.push, hlast]
    · rw [allItems, hlast, Option.map_none, Option.toList_none, List.append_nil]
  | some a =>
    refine ⟨{ k with items := k.items ++ [.one a], last := some c }, ?_, hk, rfl, rfl, ?_⟩
    · rw [EcmaScript.Class.push, hlast]
      dsimp only
      rw [hk, if_neg Bool.false_ne_true]
    · rw [allItems, hlast]
      rfl

theorem scan_item {i : Item} (h : plainItem i = true) {k : EcmaScript.Class}
    (hk : k.hyphen = false) :
    ∃ k', scan (.cls k) (itemText i) = some (.cls k', []) ∧ k'.hyphen = false ∧
      k'.negated = k.negated ∧ allItems k' = allItems k ++ [i] := by
  cases i with
  | one c =>
    obtain ⟨k', hpush, hk', hnegated, hlast, hitems⟩ := push_of_not_hyphen hk c
    refine ⟨k', ?_, hk', hnegated, ?_⟩
    · have hstep : EcmaScript.step (.cls k) c = some (.cls k', []) := by
        rw [EcmaScript.step, clsStep_of_plain h, hpush]
        rfl
      exact scan_cons hstep rfl
    · rw [allItems, hlast, hitems]
      rfl
  | range first last =>
    simp only [plainItem, Bool.and_eq_true, decide_eq_true_eq] at h
    obtain ⟨⟨⟨hfirst, hlast⟩, hle⟩, hascii⟩ := h
    obtain ⟨k', hpush, hk', hnegated, hkept, hitems⟩ := push_of_not_hyphen hk first
    -- the first end is kept back until the hyphen and the last end have come
    have hstep₁ : EcmaScript.step (.cls k) first = some (.cls k', []) := by
      rw [EcmaScript.step, clsStep_of_plain hfirst, hpush]
      rfl
    have hstep₂ : EcmaScript.step (.cls k') 0x2D = some (.cls { k' with hyphen := true }, []) := by
      have hhyphen : k'.pushHyphen = some { k' with hyphen := true } := by
        rw [EcmaScript.Class.pushHyphen, hkept, hk']
        rfl
      change (k'.pushHyphen.map fun k => (Mode.cls k, ([] : List Token))) = _
      rw [hhyphen]
      rfl
    have hstep₃ : EcmaScript.step (.cls { k' with hyphen := true }) last =
        some (.cls ⟨k'.negated, k'.items ++ [.range first last], none, false⟩, []) := by
      rw [EcmaScript.step, clsStep_of_plain hlast, EcmaScript.Class.push]
      dsimp only
      rw [hkept]
      dsimp only
      rw [if_pos rfl, if_pos ⟨hle, hascii⟩]
      rfl
    refine ⟨_, scan_cons hstep₁ (scan_cons hstep₂ (scan_cons hstep₃ rfl)), rfl, hnegated, ?_⟩
    rw [allItems, hitems]
    exact List.append_nil _

theorem scan_itemsText {items : List Item} (h : ∀ i ∈ items, plainItem i = true)
    {k : EcmaScript.Class} (hk : k.hyphen = false) :
    ∃ k', scan (.cls k) (itemsText items) = some (.cls k', []) ∧ k'.hyphen = false ∧
      k'.negated = k.negated ∧ allItems k' = allItems k ++ items := by
  induction items generalizing k with
  | nil => exact ⟨k, rfl, hk, rfl, (List.append_nil _).symm⟩
  | cons i items ih =>
    obtain ⟨k₁, hscan₁, hk₁, hnegated₁, hitems₁⟩ := scan_item (h i List.mem_cons_self) hk
    obtain ⟨k₂, hscan₂, hk₂, hnegated₂, hitems₂⟩ :=
      ih (fun j hj => h j (List.mem_cons_of_mem i hj)) hk₁
    refine ⟨k₂, scan_append hscan₁ hscan₂, hk₂, hnegated₂.trans hnegated₁, ?_⟩
    rw [hitems₂, hitems₁, List.append_assoc, List.singleton_append]

/-- A class is one token. -/
theorem scan_set {items : List Item} (hne : items ≠ []) (h : ∀ i ∈ items, plainItem i = true)
    (negated : Bool) :
    scan .top (Piece.set negated items).translation = some (.top, [.cls negated items]) := by
  obtain ⟨c, s, htext, hc⟩ := exists_itemsText_eq_cons hne h
  obtain ⟨k, hscan, hk, hnegated, hitems⟩ :=
    scan_itemsText h (k := ⟨negated, [], none, false⟩) rfl
  have hclose : scan (.cls k) [0x5D] = some (.top, [.cls negated items]) := by
    have hend : k.close = .cls negated items := by
      rw [EcmaScript.Class.close, hk, hnegated, ← allItems, hitems]
      exact congrArg _ (List.append_nil _)
    change some (Mode.top, [k.close] ++ []) = _
    rw [hend]
    rfl
  have hclass := scan_append hscan hclose
  -- the class begins at its first item, or after the caret
  have hstart : scan .clsStart ((if negated then [0x5E] else []) ++ (itemsText items ++ [0x5D])) =
      some (.top, [] ++ [.cls negated items]) := by
    cases negated with
    | true =>
      have hcaret : EcmaScript.step .clsStart 0x5E = some (.cls ⟨true, [], none, false⟩, []) := rfl
      exact scan_cons hcaret hclass
    | false =>
      have hfirst : EcmaScript.step .clsStart c =
          EcmaScript.step (.cls ⟨false, [], none, false⟩) c := by
        rw [EcmaScript.step, if_neg (ne_of_plain hc (by decide)), EcmaScript.step]
      rw [htext, List.cons_append, scan] at hclass
      rw [htext, List.cons_append, if_neg Bool.false_ne_true, List.nil_append, scan, hfirst]
      exact hclass
  have hbracket : EcmaScript.step .top 0x5B = some (.clsStart, []) := rfl
  have hopen := scan_cons hbracket hstart
  rw [Piece.translation, ← itemsText, List.cons_append, List.append_assoc]
  exact hopen

theorem scan_translation {piece : Piece} {g : List Piece} (h : WellFormed (piece :: g)) :
    scan .top piece.translation = some (.top, piece.tokens) := by
  cases piece with
  | many => rfl
  | one => rfl
  | lit c =>
    rw [Piece.translation]
    have hend : scan .top [] = some (.top, []) := rfl
    split_ifs with hc
    · -- an escaped character stands for itself
      have hbackslash : EcmaScript.step .top 0x5C = some (.escape, []) := rfl
      have hescape : EcmaScript.step .escape c = some (.top, [.chr c]) := by
        rw [EcmaScript.step, escaped_of_special hc]
        rfl
      exact scan_cons hbackslash (scan_cons hescape hend)
    · have hplain : EcmaScript.step .top c = some (.top, [.chr c]) := topStep_of_not_special hc
      exact scan_cons hplain hend
  | set negated items => exact scan_set h.1 h.2.1 negated

theorem wellFormed_tail {piece : Piece} {g : List Piece} (h : WellFormed (piece :: g)) :
    WellFormed g := by
  cases piece with
  | many => exact h
  | one => exact h
  | lit c => exact h.2.2.2
  | set negated items => exact h.2.2

theorem scan_pieces {g : List Piece} (h : WellFormed g) :
    scan .top (g.flatMap Piece.translation) = some (.top, g.flatMap Piece.tokens) := by
  induction g with
  | nil => rfl
  | cons piece g ih => exact scan_append (scan_translation h) (ih (wellFormed_tail h))

/-! ### What the regular expression matches -/

def Piece.regex : Piece → Regex UInt8
  | many => .star (.cls notLineEnd)
  | one => .cls notLineEnd
  | lit c => single c
  | set negated items => ofItems negated items

def regexOf (g : List Piece) : Regex UInt8 := (g.map Piece.regex).foldr .seq .eps

theorem parse_tokens (piece : Piece) (group : Group) (groups : List Group) :
    piece.tokens.foldlM parseStep (group :: groups) =
      some (group.push piece.regex true :: groups) := by
  cases piece with
  | many => rfl
  | one => rfl
  | lit c => rfl
  | set negated items => rfl

theorem parse_pieces (g : List Piece) (group : Group) (groups : List Group) :
    (g.flatMap Piece.tokens).foldlM parseStep (group :: groups) =
      some ({ group with parts := (g.map fun piece => (piece.regex, true)).reverse ++ group.parts } ::
        groups) := by
  induction g generalizing group with
  | nil => rfl
  | cons piece g ih =>
    rw [List.flatMap_cons, List.foldlM_append, parse_tokens]
    change (g.flatMap Piece.tokens).foldlM parseStep (group.push piece.regex true :: groups) = _
    rw [ih, List.map_cons, List.reverse_cons, List.append_assoc]
    rfl

/-- The whole expression: the pieces or an end of a line, and the end. -/
def whole (g : List Piece) : Regex UInt8 :=
  .seq (.alt (.seq (regexOf g) .eps) (.seq (ofItems false [.one 0x0D, .one 0x0A]) .eps))
    (.seq .atEnd .eps)

theorem compile_translate {g : List Piece} (h : WellFormed g) :
    EcmaScript.compile (bytes "((" ++ g.flatMap Piece.translation ++ bytes ")|[\\r\\n])$") =
      some (whole g) := by
  have hopen : scan .top (bytes "((") = some (.top, [.opening, .opening]) := by decide
  have hclose : scan .top (bytes ")|[\\r\\n])$") = some (.top,
      [.closing, .bar, .cls false [.one 0x0D, .one 0x0A], .closing, .dollar]) := by decide
  have hscan := scan_append (scan_append hopen (scan_pieces h)) hclose
  have hsequence : EcmaScript.sequence ((g.map fun piece => (piece.regex, true)).reverse ++ []) =
      regexOf g := by
    rw [EcmaScript.sequence, List.append_nil, List.reverse_reverse, List.map_map]
    rfl
  rw [EcmaScript.compile, hscan]
  dsimp only
  have hopened : [Token.opening, .opening].foldlM parseStep [⟨[], []⟩] =
      some [⟨[], []⟩, ⟨[], []⟩, ⟨[], []⟩] := rfl
  rw [EcmaScript.parse, List.foldlM_append, List.foldlM_append, hopened, Option.bind_eq_bind,
    Option.bind_some, parse_pieces, Option.bind_some, whole, ← hsequence]
  rfl

/-- What the pieces take is a name of the pattern. -/
theorem runs_regexOf (n : ℕ) (g : List Piece) (s t : Bytes) :
    Regex.Runs n (regexOf g) s t ↔ ∃ u, s = u ++ t ∧ Names g u := by
  induction g generalizing s with
  | nil =>
    rw [regexOf, List.map_nil, List.foldr_nil, Regex.Runs]
    constructor
    · rintro rfl
      exact ⟨[], rfl, rfl⟩
    · rintro ⟨u, rfl, rfl⟩
      rfl
  | cons piece g ih =>
    have hseq : Regex.Runs n (regexOf (piece :: g)) s t ↔
        ∃ v, Regex.Runs n piece.regex s v ∧ ∃ u, v = u ++ t ∧ Names g u := by
      change (∃ v, Regex.Runs n piece.regex s v ∧ Regex.Runs n (regexOf g) v t) ↔ _
      exact exists_congr fun v => and_congr_right fun _ => ih v
    rw [hseq]
    -- each piece takes its part of the name, and the others take the rest
    cases piece with
    | many =>
      simp only [Piece.regex, Regex.runs_star_cls]
      constructor
      · rintro ⟨v, ⟨w, rfl, hw⟩, u, rfl, hu⟩
        exact ⟨w ++ u, (List.append_assoc w u t).symm, w, u, rfl, hw, hu⟩
      · rintro ⟨x, rfl, w, u, rfl, hw, hu⟩
        exact ⟨u ++ t, ⟨w, List.append_assoc w u t, hw⟩, u, rfl, hu⟩
    | one =>
      constructor
      · rintro ⟨v, ⟨c, hc, rfl⟩, u, rfl, hu⟩
        exact ⟨c :: u, rfl, c, u, rfl, hc, hu⟩
      · rintro ⟨w, rfl, c, u, rfl, hc, hu⟩
        exact ⟨u ++ t, ⟨c, hc, rfl⟩, u, rfl, hu⟩
    | lit c =>
      constructor
      · rintro ⟨v, ⟨d, hd, rfl⟩, u, rfl, hu⟩
        obtain rfl := of_decide_eq_true hd
        exact ⟨d :: u, rfl, u, rfl, hu⟩
      · rintro ⟨w, rfl, u, rfl, hu⟩
        exact ⟨u ++ t, ⟨c, decide_eq_true rfl, rfl⟩, u, rfl, hu⟩
    | set negated items =>
      have hitems (c : UInt8) : (items.any (·.has c) != negated) = true ↔
          items.any (·.has c) = !negated := by
        cases items.any (·.has c) <;> cases negated <;> decide
      constructor
      · rintro ⟨v, ⟨c, hc, rfl⟩, u, rfl, hu⟩
        exact ⟨c :: u, rfl, c, u, rfl, (hitems c).mp hc, hu⟩
      · rintro ⟨w, rfl, c, u, rfl, hc, hu⟩
        exact ⟨u ++ t, ⟨c, (hitems c).mpr hc, rfl⟩, u, rfl, hu⟩

theorem matches_whole (g : List Piece) (name : Bytes) :
    Regex.Matches (whole g) name ↔ Names g name ∨ name = [0x0A] ∨ name = [0x0D] := by
  constructor
  · rintro ⟨u, hu, v, ⟨rfl, rfl⟩, -⟩
    -- the first branch of the alternative is the pattern, the second one the end of a line
    rcases hu with ⟨w, hw, rfl⟩ | ⟨w, ⟨c, hc, rfl⟩, rfl⟩
    · obtain ⟨x, rfl, hx⟩ := (runs_regexOf _ g name []).mp hw
      rw [List.append_nil]
      exact Or.inl hx
    · rcases (by simpa [EcmaScript.Item.has] using hc : c = 0x0D ∨ c = 0x0A) with rfl | rfl
      · exact Or.inr (Or.inr rfl)
      · exact Or.inr (Or.inl rfl)
  · intro h
    refine ⟨[], ?_, [], ⟨rfl, rfl⟩, rfl⟩
    rcases h with h | rfl | rfl
    · exact Or.inl ⟨[], (runs_regexOf _ g name []).mpr ⟨name, (List.append_nil name).symm, h⟩, rfl⟩
    · exact Or.inr ⟨[], ⟨0x0A, rfl, rfl⟩, rfl⟩
    · exact Or.inr ⟨[], ⟨0x0D, rfl, rfl⟩, rfl⟩

theorem filter_of_fnmatch {pattern : Bytes} {p : Bytes → Bool}
    (h : ∀ name, fnmatch name pattern = some (p name)) (names : List Bytes) :
    filter pattern names = some (names.filter p) := by
  induction names with
  | nil => rfl
  | cons name names ih =>
    rw [filter, h, Option.bind_some, ih, Option.map_some, List.filter_cons]

/-- `fnmatch` accepts the names of a pattern, and besides the two names that are only the end of a
line; `filter` keeps those, in their order. -/
theorem fnmatch_text (g : List Piece) (h : WellFormed g) :
    ∃ p : Bytes → Bool,
      (∀ name, p name = true ↔ Names g name ∨ name = [0x0A] ∨ name = [0x0D]) ∧
      (∀ name, fnmatch name (text g) = some (p name)) ∧
      ∀ names, filter (text g) names = some (names.filter p) := by
  have hmatch (name : Bytes) : fnmatch name (text g) = some ((whole g).isMatch name) := by
    rw [fnmatch, translate, translateFrom_text h, Option.map_some, Option.bind_some,
      compile_translate h]
    rfl
  refine ⟨(whole g).isMatch, fun name => ?_, hmatch, filter_of_fnmatch hmatch⟩
  rw [Regex.isMatch_iff, matches_whole]

theorem fnmatch_text_sources :
    ∃ p : Bytes → Bool,
      (∀ name, p name = true ↔ Names [.many, .set false [.range 0x30 0x39], .lit 0x2E, .one] name ∨
        name = [0x0A] ∨ name = [0x0D]) ∧
      (∀ name, fnmatch name (bytes "*[0-9].?") = some (p name)) ∧
      ∀ names, filter (bytes "*[0-9].?") names = some (names.filter p) :=
  fnmatch_text [.many, .set false [.range 0x30 0x39], .lit 0x2E, .one]
    ⟨by decide, by decide, by decide, by decide, by decide, trivial⟩

/-- Every pattern without brackets that open, or without any that close, is the text of pieces. -/
theorem exists_wellFormed (pattern : Bytes) (h : 0x5B ∉ pattern ∨ 0x5D ∉ pattern) :
    ∃ g, WellFormed g ∧ text g = pattern := by
  induction pattern with
  | nil => exact ⟨[], trivial, rfl⟩
  | cons c pattern ih =>
    have hrest : 0x5B ∉ pattern ∨ 0x5D ∉ pattern :=
      h.imp (fun h hc => h (List.mem_cons_of_mem c hc)) fun h hc => h (List.mem_cons_of_mem c hc)
    obtain ⟨g, hg, rfl⟩ := ih hrest
    by_cases hmany : c = 0x2A
    · exact ⟨.many :: g, hg, by rw [hmany]; rfl⟩
    · by_cases hone : c = 0x3F
      · exact ⟨.one :: g, hg, by rw [hone]; rfl⟩
      · -- a bracket that opens is a literal, since nothing closes it
        refine ⟨.lit c :: g, ⟨hmany, hone, ?_, hg⟩, rfl⟩
        rintro rfl hclose
        rcases h with h | h
        · exact h List.mem_cons_self
        · exact h (List.mem_cons_of_mem _ hclose)

/-- The caret of another kind of shell does not negate a class: the backslash that is put before it
is a member of its own. -/
example : fnmatch (bytes "\\") (bytes "[^a]") = some true := by decide +kernel

end Glob

end OpenAPT
