import OpenAPT.Lib.Readers

/-! XML: the trees, and a reader of texts without a document type. What it takes as a name may have
any byte of a character that is not ASCII. -/
namespace XmlText
open Readers

/-- A node of a tree: an element with its attributes and children in order, or a text. -/
inductive Node
  | element (name : List UInt8) (attributes : List (List UInt8 × List UInt8))
      (children : List Node)
  | text (s : List UInt8)

def Node.tag : Node → Text
  | .element name _ _ => name
  | .text _ => []

def lt : UInt8 := 0x3C
def gt : UInt8 := 0x3E
def ampersand : UInt8 := 0x26
def slash : UInt8 := 0x2F
def semicolon : UInt8 := 0x3B
def hash : UInt8 := 0x23

def literal (w s : Text) : Option Text := if w.isPrefixOf s then some (s.drop w.length) else none

/-- The text before a stop word, which is taken with it. -/
def upTo (stop : Text) : Reader Text
  | [] => none
  | b :: s =>
    if stop.isPrefixOf (b :: s) then some ([], (b :: s).drop stop.length)
    else (upTo stop s).map fun r => (b :: r.1, r.2)

def isLetter (b : UInt8) : Bool := (0x41 ≤ b && b ≤ 0x5A) || (0x61 ≤ b && b ≤ 0x7A)

def isNameStart (b : UInt8) : Bool := isLetter b || b = 0x5F || b = 0x3A || 0x80 ≤ b

def isNameByte (b : UInt8) : Bool := isNameStart b || isDigit b || b = 0x2D || b = 0x2E

def name : Reader Text
  | [] => none
  | b :: s =>
    if isNameStart b then some (b :: s.takeWhile isNameByte, s.dropWhile isNameByte) else none

/-- The characters of XML 1.0. -/
def isChar (codepoint : ℕ) : Bool :=
  codepoint = 0x9 || codepoint = 0xA || codepoint = 0xD ||
    (0x20 ≤ codepoint && codepoint ≤ 0xD7FF) || (0xE000 ≤ codepoint && codepoint ≤ 0xFFFD) ||
    (0x10000 ≤ codepoint && codepoint ≤ 0x10FFFF)

def number (base : ℕ) (digits : Text) : Option ℕ :=
  if digits = [] then none
  else digits.foldl (fun n b => n.bind fun n => (hexDigit? b).bind fun digit =>
    if digit < base then some (n * base + digit) else none) (some 0)

/-- The code point of a character reference. -/
def codepoint? : Text → Option ℕ
  | b :: x :: digits =>
    if b = hash then if x = 0x78 then number 16 digits else number 10 (x :: digits) else none
  | _ => none

/-- The text that a reference stands for, by what is between the ampersand and the semicolon. -/
def referenced (w : Text) : Option Text :=
  if w = [0x6C, 0x74] then some [lt]
  else if w = [0x67, 0x74] then some [gt]
  else if w = [0x61, 0x6D, 0x70] then some [ampersand]
  else if w = [0x61, 0x70, 0x6F, 0x73] then some [0x27]
  else if w = [0x71, 0x75, 0x6F, 0x74] then some [0x22]
  else (codepoint? w).bind fun n => if isChar n then some (encode n) else none

/-- A reference after its ampersand. -/
def reference : Reader Text := fun s => do
  let (w, s) ← upTo [semicolon] s
  (referenced w).map fun out => (out, s)

def commentOpen : Text := [0x21, 0x2D, 0x2D]
def cdataOpen : Text := [0x21, 0x5B, 0x43, 0x44, 0x41, 0x54, 0x41, 0x5B]
def cdataClose : Text := [0x5D, 0x5D, gt]

/-- A comment after its opening; there are no two hyphens in it. -/
def comment (s : Text) : Option Text := do
  let (_, s) ← upTo [0x2D, 0x2D] s
  literal [gt] s

/-- A processing instruction after its question mark. -/
def instruction (s : Text) : Option Text := do
  let (target, s) ← name s
  let (w, s) ← upTo [0x3F, gt] s
  let lower := target.map fun b => if 0x41 ≤ b ∧ b ≤ 0x5A then b + 0x20 else b
  if lower = [0x78, 0x6D, 0x6C] then none
  else if w = [] ∨ w.head?.any isSpace then some s
  else none

/-- What stands in content beside elements: a byte of text, a reference, a section of text, or a
comment or an instruction, which are no text. -/
def piece : Reader Text
  | [] => none
  | b :: s =>
    if b = ampersand then reference s
    else if b = lt then
      -- Both end tags and elements are taken before.
      match literal commentOpen s with
      | some s => (comment s).map fun s => ([], s)
      | none =>
        match literal cdataOpen s with
        | some s => upTo cdataClose s
        | none => (literal [0x3F] s).bind fun s => (instruction s).map fun s => ([], s)
    else if cdataClose.isPrefixOf (b :: s) then none
    else some ([b], s)

/-- The value of an attribute after its opening quote; the number bounds its pieces. -/
def attributeValue (quote : UInt8) : ℕ → Reader Text
  | 0, _ => none
  | _, [] => none
  | n + 1, b :: s =>
    if b = quote then some ([], s)
    else if b = lt then none
    else if b = ampersand then do
      let (w, s) ← reference s
      (attributeValue quote n s).map fun r => (w ++ r.1, r.2)
    else (attributeValue quote n s).map fun r => (b :: r.1, r.2)

/-- One attribute. -/
def attributePair : Reader (Text × Text) := fun s => do
  let (key, s) ← name s
  let s ← symbol 0x3D s
  match skip s with
  | [] => none
  | b :: s =>
    if b = 0x22 ∨ b = 0x27 then do
      let (v, s) ← attributeValue b (s.length + 1) s
      some ((key, v), s)
    else none

/-- The attributes of a tag, each after white space. -/
def attributes : ℕ → Reader (List (Text × Text))
  | 0, _ => none
  | n + 1, s =>
    if (skip s).head?.any isNameStart ∧ s.head?.any isSpace then do
      let (a, s) ← attributePair (skip s)
      (attributes n s).map fun r => (a :: r.1, r.2)
    else some ([], skip s)

/-- Texts that meet are one text. -/
def addText (w : Text) (nodes : List Node) : List Node :=
  if w = [] then nodes
  else
    match nodes with
    | .text s :: nodes => .text (w ++ s) :: nodes
    | nodes => .text w :: nodes

/-- The content of an element up to its end tag, by a reader of elements after their bracket; the
number bounds the pieces. -/
def content (element : Reader Node) : ℕ → Reader (List Node)
  | 0, _ => none
  | _, [] => none
  | n + 1, b :: s =>
    if b = lt ∧ s.head? = some slash then some ([], b :: s)
    else if b = lt ∧ s.head?.any isNameStart then do
      let (e, s) ← element s
      (content element n s).map fun r => (e :: r.1, r.2)
    else do
      let (w, s) ← piece (b :: s)
      (content element n s).map fun r => (addText w r.1, r.2)

/-- An element after its bracket that is not nested deeper than a bound. -/
def element : ℕ → Reader Node
  | 0, _ => none
  | depth + 1, s => do
    let (tag, s) ← name s
    let (as, s) ← attributes (s.length + 1) s
    if (as.map Prod.fst).Nodup then
      match literal [slash, gt] s with
      | some s => some (.element tag as [], s)
      | none => do
        let s ← literal [gt] s
        let (children, s) ← content (element depth) (s.length + 1) s
        let s ← literal (lt :: slash :: tag) s
        let s ← symbol gt s
        some (.element tag as children, s)
    else none

/-- White space, comments and instructions. -/
def misc : ℕ → Text → Bool
  | 0, _ => false
  | n + 1, s =>
    match skip s with
    | [] => true
    | b :: s =>
      if b = lt then
        match literal commentOpen s with
        | some s => (comment s).any (misc n)
        | none => ((literal [0x3F] s).bind instruction).any (misc n)
      else false

/-- A document: an element with nothing before it. -/
def document (s : Text) : Option Node := do
  let s ← literal [lt] s
  let (e, s) ← element s.length s
  if misc (s.length + 1) s then some e else none

/-- Whether there are U+FFFE or U+FFFF at the front. -/
def isNoncharacter (s : Text) : Bool :=
  [0xEF, 0xBF, 0xBE].isPrefixOf s || [0xEF, 0xBF, 0xBF].isPrefixOf s

/-- Whether a text of valid UTF-8 has only the characters of XML 1.0. -/
def legal : Text → Bool
  | [] => true
  | b :: s => (0x20 ≤ b || isSpace b) && !isNoncharacter (b :: s) && legal s

/-! Marks are the bytes of a reference or a section of text that its text does not have. -/

def isMark (b : UInt8) : Bool := b = semicolon || b = hash || b = 0x5B

/-- The bytes that cannot stand for themselves. -/
def isMarkup (b : UInt8) : Bool := b = lt || b = ampersand

def marks (s : Text) : ℕ := s.countP isMark

/-- The least number of marks in the content that a text is read from. -/
def textWeight (s : Text) : ℕ := marks s + min 1 (s.countP isMarkup)

mutual

def weight : Node → ℕ
  | .text s => textWeight s
  | .element _ _ children => contentWeight children

def contentWeight : List Node → ℕ
  | [] => 0
  | node :: nodes => weight node + contentWeight nodes

end

theorem isSum_contentWeight : IsSum contentWeight weight := fun node nodes => by
  rw [contentWeight]

theorem marks_append (s t : Text) : marks (s ++ t) = marks s + marks t := List.countP_append

theorem marks_le_of_suffix {s t : Text} (h : t <:+ s) : marks t ≤ marks s :=
  h.sublist.countP_le

theorem marks_le_textWeight (s : Text) : marks s ≤ textWeight s := Nat.le_add_right _ _

theorem textWeight_le_marks_iff {s : Text} :
    textWeight s ≤ marks s ↔ s.countP isMarkup = 0 := by
  rw [textWeight]
  omega

theorem textWeight_append_le (s t : Text) :
    textWeight (s ++ t) ≤ textWeight s + textWeight t := by
  rw [textWeight, textWeight, textWeight, marks_append, List.countP_append]
  omega

theorem contentWeight_addText_le (w : Text) (nodes : List Node) :
    contentWeight (addText w nodes) ≤ textWeight w + contentWeight nodes := by
  unfold addText
  split_ifs
  · omega
  · split
    · rename_i s nodes
      have hle := textWeight_append_le w s
      rw [contentWeight, contentWeight, weight, weight]
      omega
    · have heq : contentWeight (.text w :: nodes) = textWeight w + contentWeight nodes := by
        rw [contentWeight, weight]
      exact Nat.le_of_eq heq

theorem literal_eq {w s t : Text} (h : literal w s = some t) : s = w ++ t := by
  rw [literal] at h
  split_ifs at h with hw
  obtain rfl := Option.some.inj h
  obtain ⟨rest, rfl⟩ := List.isPrefixOf_iff_prefix.mp hw
  rw [List.drop_left]

theorem upTo_eq {stop s w t : Text} (h : upTo stop s = some (w, t)) : s = w ++ (stop ++ t) := by
  induction s generalizing w with
  | nil => cases h
  | cons b s ih =>
    rw [upTo] at h
    split_ifs at h with hstop
    · obtain ⟨rfl, rfl⟩ := Prod.mk.inj (Option.some.inj h)
      obtain ⟨rest, hrest⟩ := List.isPrefixOf_iff_prefix.mp hstop
      rw [← hrest, List.drop_left, List.nil_append]
    · obtain ⟨⟨w', t'⟩, hread, h⟩ := Option.map_eq_some_iff.mp h
      obtain ⟨rfl, rfl⟩ := Prod.mk.inj h
      rw [List.cons_append, ← ih hread]

theorem name_eq {s w t : Text} (h : name s = some (w, t)) : s = w ++ t := by
  cases s with
  | nil => cases h
  | cons b s =>
    rw [name] at h
    split_ifs at h
    obtain ⟨rfl, rfl⟩ := Prod.mk.inj (Option.some.inj h)
    rw [List.cons_append, List.takeWhile_append_dropWhile]

theorem symbol_suffix {b : UInt8} {s t : Text} (h : symbol b s = some t) : t <:+ s := by
  rw [symbol] at h
  split at h
  · rename_i c rest hrest
    split_ifs at h
    obtain rfl := Option.some.inj h
    have hsuffix : c :: rest <:+ s := hrest ▸ List.dropWhile_suffix isSpace
    exact (List.suffix_cons c rest).trans hsuffix
  · cases h

theorem textWeight_singleton_le : ∀ b : UInt8, textWeight [b] ≤ 1 :=
  forall_byte (by decide +kernel)

theorem isMark_of_ge : ∀ b : UInt8, 0x80 ≤ b → isMark b = false ∧ isMarkup b = false :=
  forall_byte (by decide +kernel)

theorem textWeight_encode_le (codepoint : ℕ) : textWeight (encode codepoint) ≤ 1 := by
  obtain ⟨b, hb⟩ | ⟨hhigh, -⟩ := encode_cases codepoint
  · rw [hb]
    exact textWeight_singleton_le b
  · have hmarks : marks (encode codepoint) = 0 := by
      rw [marks, List.countP_eq_zero]
      intro b hb
      rw [(isMark_of_ge b (hhigh b hb)).1]
      exact Bool.false_ne_true
    have hmarkup : (encode codepoint).countP isMarkup = 0 := by
      rw [List.countP_eq_zero]
      intro b hb
      rw [(isMark_of_ge b (hhigh b hb)).2]
      exact Bool.false_ne_true
    rw [textWeight, hmarks, hmarkup]
    omega

theorem textWeight_referenced_le {w out : Text} (h : referenced w = some out) :
    textWeight out ≤ 1 := by
  -- a predefined entity stands for one byte
  have hentity : ∀ b : UInt8, some [b] = some out → textWeight out ≤ 1 := by
    intro b hb
    obtain rfl := Option.some.inj hb
    exact textWeight_singleton_le b
  rw [referenced] at h
  split_ifs at h
  · exact hentity _ h
  · exact hentity _ h
  · exact hentity _ h
  · exact hentity _ h
  · exact hentity _ h
  · obtain ⟨n, _, h⟩ := Option.bind_eq_some_iff.mp h
    split_ifs at h
    obtain rfl := Option.some.inj h
    exact textWeight_encode_le n

theorem reference_suffix {s w t : Text} (h : reference s = some (w, t)) : t <:+ s := by
  obtain ⟨⟨ref, s₁⟩, hstop, h⟩ := Option.bind_eq_some_iff.mp h
  obtain ⟨out, _, h⟩ := Option.map_eq_some_iff.mp h
  obtain ⟨rfl, rfl⟩ := Prod.mk.inj h
  rw [upTo_eq hstop]
  exact ⟨ref ++ [semicolon], by rw [List.append_assoc]⟩

/-- A reference has a mark at least, and its text weighs no more. -/
theorem reference_weight {s w t : Text} (h : reference s = some (w, t)) :
    textWeight w + marks t ≤ marks s := by
  obtain ⟨⟨ref, s₁⟩, hstop, h⟩ := Option.bind_eq_some_iff.mp h
  obtain ⟨out, hout, h⟩ := Option.map_eq_some_iff.mp h
  obtain ⟨rfl, rfl⟩ := Prod.mk.inj h
  have hle := textWeight_referenced_le hout
  have hsemicolon : marks [semicolon] = 1 := rfl
  rw [upTo_eq hstop, marks_append, marks_append]
  omega

theorem comment_suffix {s t : Text} (h : comment s = some t) : t <:+ s := by
  obtain ⟨⟨w, s₁⟩, hstop, h⟩ := Option.bind_eq_some_iff.mp h
  have hgt := literal_eq h
  rw [upTo_eq hstop, hgt]
  exact ⟨w ++ ([0x2D, 0x2D] ++ [gt]), by simp only [List.append_assoc]⟩

theorem instruction_suffix {s t : Text} (h : instruction s = some t) : t <:+ s := by
  obtain ⟨⟨target, s₁⟩, hname, h⟩ := Option.bind_eq_some_iff.mp h
  obtain ⟨⟨w, s₂⟩, hstop, h⟩ := Option.bind_eq_some_iff.mp h
  dsimp only at h
  split_ifs at h
  obtain rfl := Option.some.inj h
  rw [name_eq hname, upTo_eq hstop]
  exact ⟨target ++ (w ++ [0x3F, gt]), by simp only [List.append_assoc]⟩

/-- A piece of content has no fewer marks than its text, and one more where that has markup. -/
theorem piece_weight {s w t : Text} (h : piece s = some (w, t)) :
    textWeight w + marks t ≤ marks s := by
  cases s with
  | nil => cases h
  | cons b s =>
    have hnil : textWeight [] = 0 := rfl
    have htail : marks s ≤ marks (b :: s) := marks_le_of_suffix (List.suffix_cons b s)
    rw [piece] at h
    split_ifs at h with hamp hlt hclose
    · -- A reference: the semicolon pays for the character.
      have hle := reference_weight h
      omega
    · split at h
      · rename_i s₁ hcomment
        obtain ⟨s₂, hread, h⟩ := Option.map_eq_some_iff.mp h
        obtain ⟨rfl, rfl⟩ := Prod.mk.inj h
        have hrest := marks_le_of_suffix (comment_suffix hread)
        have hmarks := congrArg marks (literal_eq hcomment)
        rw [marks_append] at hmarks
        omega
      · split at h
        · -- A section: one of its two brackets pays for the markup in it.
          rename_i s₁ hcdata
          have hopen : marks cdataOpen = 2 := rfl
          have hweight : textWeight w ≤ marks w + 1 := by
            rw [textWeight]
            omega
          have hmarks := congrArg marks (literal_eq hcdata)
          rw [marks_append, upTo_eq h, marks_append, marks_append] at hmarks
          omega
        · obtain ⟨s₁, hquestion, h⟩ := Option.bind_eq_some_iff.mp h
          obtain ⟨s₂, hread, h⟩ := Option.map_eq_some_iff.mp h
          obtain ⟨rfl, rfl⟩ := Prod.mk.inj h
          have hrest := marks_le_of_suffix (instruction_suffix hread)
          have hmarks := congrArg marks (literal_eq hquestion)
          rw [marks_append] at hmarks
          omega
    · obtain ⟨rfl, rfl⟩ := Prod.mk.inj (Option.some.inj h)
      have hplain : textWeight [b] = marks [b] := by
        simp [textWeight, isMarkup, hamp, hlt]
      have heq : textWeight [b] + marks s = marks (b :: s) := by
        rw [hplain, ← marks_append, List.singleton_append]
      exact Nat.le_of_eq heq

theorem attributeValue_suffix {quote : UInt8} {n : ℕ} {s w t : Text}
    (h : attributeValue quote n s = some (w, t)) : t <:+ s := by
  induction n generalizing s w with
  | zero => cases h
  | succ n ih =>
    cases s with
    | nil => cases h
    | cons b s =>
      rw [attributeValue] at h
      split_ifs at h
      · obtain ⟨rfl, rfl⟩ := Prod.mk.inj (Option.some.inj h)
        exact List.suffix_cons b s
      · obtain ⟨⟨out, s₁⟩, href, h⟩ := Option.bind_eq_some_iff.mp h
        obtain ⟨⟨w', t'⟩, hrest, h⟩ := Option.map_eq_some_iff.mp h
        obtain ⟨rfl, rfl⟩ := Prod.mk.inj h
        exact (ih hrest).trans ((reference_suffix href).trans (List.suffix_cons b s))
      · obtain ⟨⟨w', t'⟩, hrest, h⟩ := Option.map_eq_some_iff.mp h
        obtain ⟨rfl, rfl⟩ := Prod.mk.inj h
        exact (ih hrest).trans (List.suffix_cons b s)

theorem skip_suffix (s : Text) : skip s <:+ s := List.dropWhile_suffix isSpace

theorem attributePair_suffix {s t : Text} {a : Text × Text} (h : attributePair s = some (a, t)) :
    t <:+ s := by
  obtain ⟨⟨key, s₁⟩, hname, h⟩ := Option.bind_eq_some_iff.mp h
  obtain ⟨s₂, hequals, h⟩ := Option.bind_eq_some_iff.mp h
  have hkey : s₁ <:+ s := ⟨key, (name_eq hname).symm⟩
  have hskip := skip_suffix s₂
  dsimp only at h
  split at h
  · cases h
  · rename_i b s₃ hs₃
    split_ifs at h
    obtain ⟨⟨v, s₄⟩, hvalue, h⟩ := Option.bind_eq_some_iff.mp h
    obtain ⟨rfl, rfl⟩ := Prod.mk.inj (Option.some.inj h)
    rw [hs₃] at hskip
    have htail := (attributeValue_suffix hvalue).trans ((List.suffix_cons b s₃).trans hskip)
    exact htail.trans ((symbol_suffix hequals).trans hkey)

theorem attributes_suffix {n : ℕ} {s t : Text} {as : List (Text × Text)}
    (h : attributes n s = some (as, t)) : t <:+ s := by
  induction n generalizing s as with
  | zero => cases h
  | succ n ih =>
    rw [attributes] at h
    split_ifs at h
    · obtain ⟨⟨a, s₁⟩, hpair, h⟩ := Option.bind_eq_some_iff.mp h
      obtain ⟨⟨as', t'⟩, hrest, h⟩ := Option.map_eq_some_iff.mp h
      obtain ⟨rfl, rfl⟩ := Prod.mk.inj h
      exact (ih hrest).trans ((attributePair_suffix hpair).trans (skip_suffix s))
    · obtain ⟨rfl, rfl⟩ := Prod.mk.inj (Option.some.inj h)
      exact skip_suffix s

/-- A reader of nodes leaves as many marks fewer as its node weighs, at least. -/
def Weighs {α : Type} (weigh : α → ℕ) (reader : Reader α) : Prop :=
  ∀ s a t, reader s = some (a, t) → weigh a + marks t ≤ marks s

theorem content_weighs {element : Reader Node} (helement : Weighs weight element) (n : ℕ) :
    Weighs contentWeight (content element n) := by
  induction n with
  | zero =>
    intro s nodes t h
    cases h
  | succ n ih =>
    intro s nodes t h
    cases s with
    | nil => cases h
    | cons b s =>
      have htail : marks s ≤ marks (b :: s) := marks_le_of_suffix (List.suffix_cons b s)
      rw [content] at h
      split_ifs at h
      · obtain ⟨rfl, rfl⟩ := Prod.mk.inj (Option.some.inj h)
        exact Nat.le_of_eq (Nat.zero_add _)
      · obtain ⟨⟨e, s₁⟩, he, h⟩ := Option.bind_eq_some_iff.mp h
        obtain ⟨⟨nodes', t'⟩, hrest, h⟩ := Option.map_eq_some_iff.mp h
        obtain ⟨rfl, rfl⟩ := Prod.mk.inj h
        have hfirst := helement _ _ _ he
        have hothers := ih _ _ _ hrest
        rw [contentWeight]
        dsimp only
        omega
      · obtain ⟨⟨w, s₁⟩, hpiece, h⟩ := Option.bind_eq_some_iff.mp h
        obtain ⟨⟨nodes', t'⟩, hrest, h⟩ := Option.map_eq_some_iff.mp h
        obtain ⟨rfl, rfl⟩ := Prod.mk.inj h
        have hfirst := piece_weight hpiece
        have hothers := ih _ _ _ hrest
        have hadd := contentWeight_addText_le w nodes'
        dsimp only
        omega

/-- The induction is on the nesting. -/
theorem element_weighs (depth : ℕ) : Weighs weight (element depth) := by
  induction depth with
  | zero =>
    intro s e t h
    cases h
  | succ depth ih =>
    intro s e t h
    obtain ⟨⟨tag, s₁⟩, hname, h⟩ := Option.bind_eq_some_iff.mp h
    obtain ⟨⟨as, s₂⟩, hattributes, h⟩ := Option.bind_eq_some_iff.mp h
    have htag := marks_le_of_suffix ⟨tag, (name_eq hname).symm⟩
    have has := marks_le_of_suffix (attributes_suffix hattributes)
    dsimp only at h
    split_ifs at h
    split at h
    · rename_i s₃ hclose
      obtain ⟨rfl, rfl⟩ := Prod.mk.inj (Option.some.inj h)
      have hrest := marks_le_of_suffix ⟨_, (literal_eq hclose).symm⟩
      rw [weight, contentWeight]
      omega
    · obtain ⟨s₃, hopen, h⟩ := Option.bind_eq_some_iff.mp h
      obtain ⟨⟨children, s₄⟩, hcontent, h⟩ := Option.bind_eq_some_iff.mp h
      obtain ⟨s₅, hend, h⟩ := Option.bind_eq_some_iff.mp h
      obtain ⟨s₆, hgt, h⟩ := Option.bind_eq_some_iff.mp h
      obtain ⟨rfl, rfl⟩ := Prod.mk.inj (Option.some.inj h)
      have h₃ := marks_le_of_suffix ⟨_, (literal_eq hopen).symm⟩
      have h₄ := content_weighs ih _ _ _ _ hcontent
      have h₅ : marks s₅ ≤ marks s₄ := marks_le_of_suffix ⟨_, (literal_eq hend).symm⟩
      have h₆ := marks_le_of_suffix (symbol_suffix hgt)
      rw [weight]
      dsimp only
      omega

theorem document_weight {s : Text} {e : Node} (h : document s = some e) : weight e ≤ marks s := by
  obtain ⟨s₁, hopen, h⟩ := Option.bind_eq_some_iff.mp h
  obtain ⟨⟨e', s₂⟩, helement, h⟩ := Option.bind_eq_some_iff.mp h
  dsimp only at h
  split_ifs at h
  obtain rfl := Option.some.inj h
  have hrest := marks_le_of_suffix ⟨_, (literal_eq hopen).symm⟩
  have hweight := element_weighs _ _ _ _ helement
  omega

/-! Texts written as they are, without references. -/

/-- Whether the closing of a section of text is in a text. -/
def closes : Text → Bool
  | [] => false
  | b :: s => cdataClose.isPrefixOf (b :: s) || closes s

structure IsName (tag : Text) : Prop where
  ne_nil : tag ≠ []
  head : tag.head?.any isNameStart = true
  bytes : ∀ b ∈ tag, isNameByte b = true

/-- An element with a text in it, after its bracket. -/
def textElement (field : Text × Text) : Text :=
  field.1 ++ gt :: (field.2 ++ lt :: slash :: (field.1 ++ [gt]))

def textNode (field : Text × Text) : Node := .element field.1 [] (addText field.2 [])

/-- Elements with texts in them, in an element. -/
def textDocument (tag : Text) (fields : List (Text × Text)) : Text :=
  lt :: (tag ++ gt :: (fields.flatMap (fun f => lt :: textElement f) ++
    lt :: slash :: (tag ++ [gt])))

/-- The bytes of ASCII that are not control bytes. -/
def isAscii (b : UInt8) : Bool := 0x20 ≤ b && b < 0x80

theorem isPrefixOf_of_high {w : Text} (hw : ∀ c ∈ w, 0x80 ≤ c) (s : Text) {b : UInt8}
    (hb : isAscii b = true) (t : Text) : w.isPrefixOf (s ++ b :: t) = w.isPrefixOf s := by
  have hascii : ∀ b c : UInt8, isAscii b = true → 0x80 ≤ c → (c == b) = false := by
    intro b c hb hc
    rw [beq_eq_false_iff_ne]
    rintro rfl
    rw [isAscii, Bool.and_eq_true, decide_eq_true_eq, decide_eq_true_eq] at hb
    exact UInt8.not_lt.mpr hc hb.2
  induction w generalizing s with
  | nil => simp
  | cons c w ih =>
    obtain ⟨hc, hw⟩ := List.forall_mem_cons.mp hw
    cases s with
    | nil => simp [List.isPrefixOf, hascii b c hb hc]
    | cons d s => simp [List.isPrefixOf, ih hw s]

theorem isNoncharacter_append (s : Text) {b : UInt8} (hb : isAscii b = true) (t : Text) :
    isNoncharacter (s ++ b :: t) = isNoncharacter s := by
  have hFFFE : ∀ c ∈ ([0xEF, 0xBF, 0xBE] : Text), 0x80 ≤ c := by decide +kernel
  have hFFFF : ∀ c ∈ ([0xEF, 0xBF, 0xBF] : Text), 0x80 ≤ c := by decide +kernel
  rw [isNoncharacter, isPrefixOf_of_high hFFFE s hb t, isPrefixOf_of_high hFFFF s hb t,
    isNoncharacter]

theorem legal_cons {b : UInt8} (hb : isAscii b = true) (t : Text) : legal (b :: t) = legal t := by
  have hnot := isNoncharacter_append [] hb t
  have hle : decide (0x20 ≤ b) = true := (Bool.and_eq_true_iff.mp hb).1
  rw [List.nil_append] at hnot
  have hnil : isNoncharacter [] = false := rfl
  rw [legal, hnot, hnil, hle, Bool.true_or, Bool.not_false, Bool.true_and, Bool.true_and]

theorem legal_append (s : Text) {b : UInt8} (hb : isAscii b = true) (t : Text) :
    legal (s ++ b :: t) = (legal s && legal (b :: t)) := by
  induction s with
  | nil => rfl
  | cons c s ih =>
    have hnot := isNoncharacter_append (c :: s) hb t
    rw [List.cons_append] at hnot ⊢
    rw [legal, legal, hnot, ih]
    simp only [Bool.and_assoc]

theorem legal_of_ascii {s : Text} (h : ∀ b ∈ s, isAscii b = true) : legal s = true := by
  induction s with
  | nil => rfl
  | cons b s ih =>
    obtain ⟨hb, hs⟩ := List.forall_mem_cons.mp h
    rw [legal_cons hb, ih hs]

/-- What the parts of a document have, the document has. -/
theorem textDocument_rule {P : Text → Prop} (hnil : P [])
    (hcons : ∀ b t, isAscii b = true → P t → P (b :: t)) {tag : Text} {fields : List (Text × Text)}
    (htag : ∀ b ∈ tag, isAscii b = true) (hname : ∀ f ∈ fields, ∀ b ∈ f.1, isAscii b = true)
    (htext : ∀ f ∈ fields, ∀ b t, isAscii b = true → P (b :: t) → P (f.2 ++ b :: t)) :
    P (textDocument tag fields) := by
  have hascii {w t : Text} (hw : ∀ b ∈ w, isAscii b = true) (ht : P t) : P (w ++ t) := by
    induction w with
    | nil => exact ht
    | cons b w ih =>
      obtain ⟨hb, hw⟩ := List.forall_mem_cons.mp hw
      exact hcons b _ hb (ih hw)
  have hlt : isAscii lt = true := rfl
  have hgt : isAscii gt = true := rfl
  have hslash : isAscii slash = true := rfl
  have hend {w t : Text} (hw : ∀ b ∈ w, isAscii b = true) (ht : P t) :
      P (lt :: slash :: (w ++ gt :: t)) :=
    hcons _ _ hlt (hcons _ _ hslash (hascii hw (hcons _ _ hgt ht)))
  have hfields : P (fields.flatMap (fun f => lt :: textElement f) ++
      lt :: slash :: (tag ++ [gt])) := by
    induction fields with
    | nil => exact hend htag hnil
    | cons f fields ih =>
      obtain ⟨hf, hname⟩ := List.forall_mem_cons.mp hname
      obtain ⟨hftext, htext⟩ := List.forall_mem_cons.mp htext
      have hrest := hftext _ _ hlt (hend hf (ih hname htext))
      simpa only [List.flatMap_cons, textElement, List.append_assoc, List.cons_append,
        List.nil_append] using hcons _ _ hlt (hascii hf (hcons _ _ hgt hrest))
  exact hcons _ _ hlt (hascii htag (hcons _ _ hgt hfields))

theorem isPrefixOf_cdataClose (s t : Text) :
    cdataClose.isPrefixOf (s ++ lt :: t) = cdataClose.isPrefixOf s := by
  match s with
  | [] => rfl
  -- The bracket of the end tag is neither of the bytes that would go on with the closing.
  | [b] => simp [cdataClose, List.isPrefixOf, lt]
  | [b, c] => simp [cdataClose, List.isPrefixOf, lt, gt]
  | b :: c :: d :: s => simp [cdataClose, List.isPrefixOf]

theorem closes_iff {s : Text} : closes s = true ↔ cdataClose <:+: s := by
  induction s with
  | nil => decide
  | cons b s ih =>
    rw [closes, Bool.or_eq_true, List.isPrefixOf_iff_prefix, ih, List.infix_cons_iff]

theorem addText_cons (b : UInt8) (s : Text) : addText [b] (addText s []) = addText (b :: s) [] := by
  cases s <;> rfl

/-- The induction is on the text, which is read a byte at a time. -/
theorem content_text (element : Reader Node) {s : Text} (hs : ∀ b ∈ s, isMarkup b = false)
    (t : Text) {n : ℕ} (hn : s.length < n) : content element n (s ++ lt :: slash :: t) =
      if closes s then none else some (addText s [], lt :: slash :: t) := by
  induction s generalizing n with
  | nil =>
    obtain ⟨n, rfl⟩ : ∃ k, n = k + 1 := ⟨n - 1, by omega⟩
    rfl
  | cons b s ih =>
    obtain ⟨n, rfl⟩ : ∃ k, n = k + 1 := ⟨n - 1, by omega⟩
    have hb : ¬b = lt ∧ ¬b = ampersand := by simpa [isMarkup] using hs b List.mem_cons_self
    have hrest := ih (fun c hc => hs c (List.mem_cons_of_mem b hc)) (Nat.lt_of_succ_lt_succ hn)
    have hprefix := isPrefixOf_cdataClose (b :: s) (slash :: t)
    rw [List.cons_append] at hprefix ⊢
    simp only [content, piece, hb.1, hb.2, false_and, ↓reduceIte, hprefix, closes]
    by_cases hclose : cdataClose.isPrefixOf (b :: s) = true
    · simp [hclose]
    · simp only [hclose, Bool.false_eq_true, ↓reduceIte, Option.bind_eq_bind, Option.bind_some,
        hrest, Bool.false_or]
      split_ifs
      · rfl
      · rw [Option.map_some, addText_cons]

theorem literal_append (w s : Text) : literal w (w ++ s) = some s := by
  rw [literal, if_pos (List.isPrefixOf_iff_prefix.mpr (List.prefix_append w s)), List.drop_left]

theorem name_append {tag : Text} (h : IsName tag) (s : Text) :
    name (tag ++ gt :: s) = some (tag, gt :: s) := by
  cases tag with
  | nil => exact absurd rfl h.ne_nil
  | cons b w =>
    have hstart : isNameStart b = true := h.head
    have hbytes : ∀ c ∈ w, isNameByte c = true := fun c hc => h.bytes c (List.mem_cons_of_mem b hc)
    have hgt : ¬isNameByte gt = true := by decide
    rw [List.cons_append, name, if_pos hstart, List.takeWhile_append_of_pos hbytes,
      List.dropWhile_append_of_pos hbytes, List.takeWhile_cons_of_neg hgt,
      List.dropWhile_cons_of_neg hgt, List.append_nil]

/-- An element without attributes is its content and its end tag. -/
theorem element_append {tag : Text} (h : IsName tag) (depth : ℕ) (s : Text) :
    element (depth + 1) (tag ++ gt :: s) =
      (content (element depth) (s.length + 1) s).bind fun r =>
        (literal (lt :: slash :: tag) r.2).bind fun s =>
          (symbol gt s).bind fun s => some (.element tag [] r.1, s) := by
  have hattributes (n : ℕ) : attributes (n + 1) (gt :: s) = some ([], gt :: s) := rfl
  have hempty : literal [slash, gt] (gt :: s) = none := rfl
  have hopen : literal [gt] (gt :: s) = some s := rfl
  rw [element, name_append h]
  simp only [Option.bind_eq_bind, Option.bind_some, hattributes, List.map_nil, List.nodup_nil,
    ↓reduceIte, hempty, hopen]

theorem element_text {field : Text × Text} (hname : IsName field.1)
    (hplain : ∀ b ∈ field.2, isMarkup b = false) (depth : ℕ) (t : Text) :
    element (depth + 1) (textElement field ++ t) =
      if closes field.2 then none else some (textNode field, t) := by
  have htext : textElement field ++ t =
      field.1 ++ gt :: (field.2 ++ lt :: slash :: (field.1 ++ gt :: t)) := by
    simp only [textElement, List.append_assoc, List.cons_append, List.nil_append]
  have hend : literal (lt :: slash :: field.1) (lt :: slash :: (field.1 ++ gt :: t)) =
      some (gt :: t) := literal_append (lt :: slash :: field.1) (gt :: t)
  have hgt : symbol gt (gt :: t) = some t := rfl
  rw [htext, element_append hname, content_text _ hplain]
  · split_ifs
    · rfl
    · simp only [Option.bind_some, hend, hgt, textNode]
  · rw [List.length_append]
    omega

theorem textElement_cons {field : Text × Text} (hname : IsName field.1) :
    ∃ b s, textElement field = b :: s ∧ isNameStart b = true := by
  obtain ⟨tag, w⟩ := field
  cases tag with
  | nil => exact absurd rfl hname.ne_nil
  | cons b s => exact ⟨b, _, rfl, hname.head⟩

theorem length_le_length_flatMap {α : Type} (write : α → Text) {as : List α}
    (h : ∀ a ∈ as, 0 < (write a).length) : as.length ≤ (as.flatMap write).length := by
  induction as with
  | nil => exact Nat.zero_le _
  | cons a as ih =>
    obtain ⟨ha, has⟩ := List.forall_mem_cons.mp h
    have hle := ih has
    rw [List.flatMap_cons, List.length_append, List.length_cons]
    omega

theorem content_fields (depth : ℕ) {fields : List (Text × Text)}
    (hname : ∀ f ∈ fields, IsName f.1) (hplain : ∀ f ∈ fields, ∀ b ∈ f.2, isMarkup b = false)
    (t : Text) {n : ℕ} (hn : fields.length < n) :
    content (element (depth + 1)) n
        (fields.flatMap (fun f => lt :: textElement f) ++ lt :: slash :: t) =
      if fields.any (fun f => closes f.2) then none
      else some (fields.map textNode, lt :: slash :: t) := by
  induction fields generalizing n with
  | nil =>
    obtain ⟨n, rfl⟩ : ∃ k, n = k + 1 := ⟨n - 1, by omega⟩
    rfl
  | cons f fields ih =>
    obtain ⟨n, rfl⟩ : ∃ k, n = k + 1 := ⟨n - 1, by omega⟩
    obtain ⟨hf, hfields⟩ := List.forall_mem_cons.mp hname
    obtain ⟨hfplain, hfieldsPlain⟩ := List.forall_mem_cons.mp hplain
    have hrest := ih hfields hfieldsPlain (Nat.lt_of_succ_lt_succ hn)
    obtain ⟨b, w, hw, hb⟩ := textElement_cons hf
    have hslash : ¬b = slash := by
      rintro rfl
      exact absurd hb (by decide)
    have helement := element_text hf hfplain depth
      (fields.flatMap (fun f => lt :: textElement f) ++ lt :: slash :: t)
    rw [List.flatMap_cons, List.append_assoc, List.cons_append]
    rw [hw, List.cons_append] at helement ⊢
    simp only [content, true_and, List.head?_cons, Option.some.injEq, hslash, ↓reduceIte,
      Option.any_some, hb, helement, List.any_cons, List.map_cons]
    by_cases hclose : closes f.2 = true
    · simp [hclose]
    · simp only [hclose, Bool.false_eq_true, ↓reduceIte, Option.bind_eq_bind, Option.bind_some,
        hrest, Bool.false_or]
      split_ifs <;> rfl

/-- A document of texts without markup is read unless one of them closes a section of text. -/
theorem document_text {tag : Text} {fields : List (Text × Text)} (htag : IsName tag)
    (hname : ∀ f ∈ fields, IsName f.1) (hplain : ∀ f ∈ fields, ∀ b ∈ f.2, isMarkup b = false) :
    document (textDocument tag fields) =
      if fields.any (fun f => closes f.2) then none
      else some (.element tag [] (fields.map textNode)) := by
  let children := fields.flatMap (fun f => lt :: textElement f) ++ lt :: slash :: (tag ++ [gt])
  have hopen : literal [lt] (textDocument tag fields) = some (tag ++ gt :: children) := rfl
  have hend : literal (lt :: slash :: tag) (lt :: slash :: (tag ++ [gt])) = some [gt] :=
    literal_append (lt :: slash :: tag) [gt]
  have hgt : symbol gt [gt] = some [] := rfl
  have hmisc (n : ℕ) : misc (n + 1) [] = true := rfl
  have hfields : fields.length < children.length + 1 := by
    have hle : fields.length ≤ (fields.flatMap fun f => lt :: textElement f).length :=
      length_le_length_flatMap _ fun f _ => Nat.succ_pos _
    rw [List.length_append]
    omega
  -- One level of nesting is for the document's element and one for those in it.
  obtain ⟨depth, hdepth⟩ : ∃ k, (tag ++ gt :: children).length = k + 2 := by
    refine ⟨(tag ++ gt :: children).length - 2, ?_⟩
    simp only [children, List.length_append, List.length_cons]
    omega
  rw [document, hopen]
  simp only [Option.bind_eq_bind, Option.bind_some]
  rw [hdepth, element_append htag, content_fields depth hname hplain _ hfields]
  split_ifs
  · rfl
  · simp only [Option.bind_some, hend, hgt, hmisc, ↓reduceIte]

end XmlText
