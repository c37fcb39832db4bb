import OpenAPT.Lib.Decimals

/-! JSON texts: the strings with their escapes, the numbers, and the values, with a reader and a
writer that indents. -/
namespace JsonText
open Readers

def quote : UInt8 := 0x22
def backslash : UInt8 := 0x5C
def colon : UInt8 := 0x3A

/-- Where a reader is inside a string: between characters, after a backslash, with `n` digits to
come of an escape, or at the first or second byte between the halves of a surrogate pair. -/
inductive ScanState
  | plain
  | escaped
  | hex (high : Option ℕ) (n value : ℕ)
  | pair (high : ℕ)
  | pairEscaped (high : ℕ)
  deriving DecidableEq

/-- The end of a four-digit escape. -/
def escapeEnd (high : Option ℕ) (value : ℕ) : Option (ScanState × Text) :=
  match high with
  | none =>
    if 0xD800 ≤ value ∧ value ≤ 0xDBFF then some (.pair value, [])
    else if 0xDC00 ≤ value ∧ value ≤ 0xDFFF then none
    else some (.plain, encode value)
  | some high =>
    if 0xDC00 ≤ value ∧ value ≤ 0xDFFF then
      some (.plain, encode ((high - 0xD800) * 0x400 + (value - 0xDC00) + 0x10000))
    else none

/-- The byte that a backslash and a byte stand for. -/
def escapeOf (b : UInt8) : Option UInt8 :=
  if b = quote ∨ b = backslash ∨ b = 0x2F then some b
  else if b = 0x62 then some 0x08
  else if b = 0x66 then some 0x0C
  else if b = 0x6E then some 0x0A
  else if b = 0x72 then some 0x0D
  else if b = 0x74 then some 0x09
  else none

/-- One byte of a string, with the bytes it completes. The closing quote is not one of them. -/
def scanStep (state : ScanState) (b : UInt8) : Option (ScanState × Text) :=
  match state with
  | .plain =>
    if b = quote then none
    else if b = backslash then some (.escaped, [])
    else if b < 0x20 then none
    else some (.plain, [b])
  | .escaped =>
    if b = 0x75 then some (.hex none 4 0, []) else (escapeOf b).map fun c => (.plain, [c])
  | .hex high n value =>
    (hexDigit? b).bind fun digit =>
      if n = 1 then escapeEnd high (value * 0x10 + digit)
      else some (.hex high (n - 1) (value * 0x10 + digit), [])
  | .pair high => if b = backslash then some (.pairEscaped high, []) else none
  | .pairEscaped high => if b = 0x75 then some (.hex (some high) 4 0, []) else none

/-- A string after its opening quote. -/
def scan : ScanState → Reader Text
  | _, [] => none
  | state, b :: s =>
    if state = .plain ∧ b = quote then some ([], s)
    else (scanStep state b).bind fun next => (scan next.1 s).map fun r => (next.2 ++ r.1, r.2)

/-- The state after some bytes of a string, with what they stand for. -/
def feed : ScanState → Text → Option (ScanState × Text)
  | state, [] => some (state, [])
  | state, b :: s =>
    (scanStep state b).bind fun next => (feed next.1 s).map fun r => (r.1, next.2 ++ r.2)

/-- The writing of a byte: quotes, backslashes and control bytes are escaped. -/
def escapeByte (b : UInt8) : Text :=
  let digit (n : UInt8) : UInt8 := if n < 10 then 0x30 + n else 0x57 + n
  if b = 0x08 then [backslash, 0x62]
  else if b = 0x09 then [backslash, 0x74]
  else if b = 0x0A then [backslash, 0x6E]
  else if b = 0x0C then [backslash, 0x66]
  else if b = 0x0D then [backslash, 0x72]
  else if b = quote ∨ b = backslash then [backslash, b]
  else if b < 0x20 then [backslash, 0x75, 0x30, 0x30, digit (b / 0x10), digit (b % 0x10)]
  else [b]

def escape (s : Text) : Text := s.flatMap escapeByte

theorem scan_append {state next : ScanState} {w out : Text} (h : feed state w = some (next, out))
    (s : Text) : scan state (w ++ s) = (scan next s).map fun r => (out ++ r.1, r.2) := by
  induction w generalizing state out with
  | nil =>
    obtain ⟨rfl, rfl⟩ := Prod.mk.inj (Option.some.inj h)
    rw [List.nil_append]
    exact Option.map_id'.symm
  | cons b w ih =>
    rw [feed] at h
    obtain ⟨⟨state₁, out₁⟩, hstep, h⟩ := Option.bind_eq_some_iff.mp h
    obtain ⟨⟨state₂, out₂⟩, hfeed, h⟩ := Option.map_eq_some_iff.mp h
    obtain ⟨rfl, rfl⟩ := Prod.mk.inj h
    have hopen : ¬(state = .plain ∧ b = quote) := by
      rintro ⟨rfl, rfl⟩
      cases hstep
    rw [List.cons_append, scan, if_neg hopen, hstep, Option.bind_some, ih hfeed, Option.map_map]
    simp only [Function.comp_def, List.append_assoc]

theorem scan_quote (s : Text) : scan .plain (quote :: s) = some ([], s) := rfl

/-- A byte is read back from its writing. -/
theorem feed_escapeByte : ∀ b : UInt8, feed .plain (escapeByte b) = some (.plain, [b]) :=
  forall_byte (by decide +kernel)

/-- A string is read back from its writing. -/
theorem scan_escape (s t : Text) : scan .plain (escape s ++ quote :: t) = some (s, t) := by
  induction s with
  | nil => exact scan_quote t
  | cons b s ih =>
    rw [escape, List.flatMap_cons, List.append_assoc, scan_append (feed_escapeByte b)]
    rw [escape] at ih
    rw [ih]
    rfl

/-- The bytes that cannot stand for themselves in a string. -/
def Special (b : UInt8) : Bool := b = quote || b = backslash || b < 0x20

theorem escapeByte_of_plain : ∀ b : UInt8, Special b = false → escapeByte b = [b] :=
  forall_byte (by decide +kernel)

theorem escape_of_plain {s : Text} (h : ∀ b ∈ s, Special b = false) : escape s = s := by
  induction s with
  | nil => rfl
  | cons b s ih =>
    rw [escape, List.flatMap_cons, escapeByte_of_plain b (h b List.mem_cons_self),
      List.singleton_append]
    rw [escape] at ih
    rw [ih fun c hc => h c (List.mem_cons_of_mem b hc)]

/-- The least number of bytes a string takes between its quotes. -/
def stringSize (s : Text) : ℕ := s.length + s.countP Special

theorem stringSize_append (s t : Text) : stringSize (s ++ t) = stringSize s + stringSize t := by
  rw [stringSize, stringSize, stringSize, List.length_append, List.countP_append]
  omega

/-- The bytes read of an escape that is not complete. -/
def ScanState.pending : ScanState → ℕ
  | .plain => 0
  | .escaped => 1
  | .hex none n _ => 6 - n
  | .hex (some _) n _ => 12 - n
  | .pair _ => 6
  | .pairEscaped _ => 7

theorem stringSize_singleton_le (b : UInt8) : stringSize [b] ≤ 2 := by
  have hcount := List.countP_le_length (p := Special) (l := [b])
  rw [stringSize]
  rw [List.length_singleton] at hcount ⊢
  omega

theorem special_of_ge : ∀ b : UInt8, 0x80 ≤ b → Special b = false :=
  forall_byte (by decide +kernel)

theorem stringSize_of_plain {s : Text} (h : ∀ b ∈ s, Special b = false) :
    stringSize s = s.length := by
  have hcount : s.countP Special = 0 := by
    rw [List.countP_eq_zero]
    intro b hb
    rw [h b hb]
    exact Bool.false_ne_true
  rw [stringSize, hcount, Nat.add_zero]

theorem stringSize_encode_le (codepoint : ℕ) : stringSize (encode codepoint) ≤ 4 := by
  obtain ⟨b, hb⟩ | ⟨hhigh, hlength⟩ := encode_cases codepoint
  · rw [hb]
    exact Nat.le_trans (stringSize_singleton_le b) (by decide)
  · rw [stringSize_of_plain fun b hb => special_of_ge b (hhigh b hb)]
    exact hlength

theorem stringSize_of_escapeEnd {high : Option ℕ} {value : ℕ} {next : ScanState} {out : Text}
    (h : escapeEnd high value = some (next, out)) : stringSize out + next.pending ≤ 6 := by
  have hencode (n : ℕ) : stringSize (encode n) + ScanState.plain.pending ≤ 6 :=
    Nat.le_trans (stringSize_encode_le n) (by decide)
  cases high with
  | none =>
    rw [escapeEnd] at h
    split_ifs at h
    · obtain ⟨rfl, rfl⟩ := Prod.mk.inj (Option.some.inj h)
      exact Nat.le_refl 6
    · obtain ⟨rfl, rfl⟩ := Prod.mk.inj (Option.some.inj h)
      exact hencode _
  | some high =>
    rw [escapeEnd] at h
    split_ifs at h
    obtain ⟨rfl, rfl⟩ := Prod.mk.inj (Option.some.inj h)
    exact hencode _

theorem stringSize_of_scanStep {state next : ScanState} {b : UInt8} {out : Text}
    (h : scanStep state b = some (next, out)) :
    stringSize out + next.pending ≤ state.pending + 1 := by
  cases state with
  | plain =>
    rw [scanStep] at h
    split_ifs at h with h1 h2 h3
    · obtain ⟨rfl, rfl⟩ := Prod.mk.inj (Option.some.inj h)
      decide
    · obtain ⟨rfl, rfl⟩ := Prod.mk.inj (Option.some.inj h)
      have hplain : Special b = false := by simp [Special, h1, h2, h3]
      simp [stringSize, hplain, ScanState.pending]
  | escaped =>
    rw [scanStep] at h
    split_ifs at h
    · obtain ⟨rfl, rfl⟩ := Prod.mk.inj (Option.some.inj h)
      decide
    · obtain ⟨c, _, h⟩ := Option.map_eq_some_iff.mp h
      obtain ⟨rfl, rfl⟩ := Prod.mk.inj h
      exact stringSize_singleton_le c
  | hex high n value =>
    obtain ⟨digit, _, h⟩ := Option.bind_eq_some_iff.mp h
    split_ifs at h with hn
    · have hend := stringSize_of_escapeEnd h
      cases high <;> rw [ScanState.pending] <;> omega
    · obtain ⟨rfl, rfl⟩ := Prod.mk.inj (Option.some.inj h)
      have hnil : stringSize [] = 0 := rfl
      cases high <;> rw [ScanState.pending, ScanState.pending, hnil] <;> omega
  | pair high =>
    rw [scanStep] at h
    split_ifs at h
    obtain ⟨rfl, rfl⟩ := Prod.mk.inj (Option.some.inj h)
    exact Nat.le_refl 7
  | pairEscaped high =>
    rw [scanStep] at h
    split_ifs at h
    obtain ⟨rfl, rfl⟩ := Prod.mk.inj (Option.some.inj h)
    exact Nat.le_refl 8

theorem scan_bounded {state : ScanState} {s out t : Text} (h : scan state s = some (out, t)) :
    stringSize out + t.length + 1 ≤ s.length + state.pending := by
  induction s generalizing state out with
  | nil => cases h
  | cons b s ih =>
    rw [scan] at h
    split_ifs at h with hclose
    · obtain ⟨rfl, rfl⟩ := Prod.mk.inj (Option.some.inj h)
      have hnil : stringSize [] = 0 := rfl
      rw [hnil, List.length_cons]
      omega
    · obtain ⟨⟨next, w⟩, hstep, h⟩ := Option.bind_eq_some_iff.mp h
      obtain ⟨⟨rest, t'⟩, hscan, h⟩ := Option.map_eq_some_iff.mp h
      obtain ⟨rfl, rfl⟩ := Prod.mk.inj h
      have hsize := stringSize_of_scanStep hstep
      have hrest : stringSize rest + t'.length + 1 ≤ s.length + next.pending := ih hscan
      rw [stringSize_append, List.length_cons]
      dsimp only
      omega

/-! Numbers are kept as their texts. -/

/-- One digit or more. -/
def digits : Reader Text := fun s =>
  if s.takeWhile isDigit = [] then none else some (s.takeWhile isDigit, s.dropWhile isDigit)

/-- A sign, if there is one. -/
def sign (isSign : UInt8 → Bool) (s : Text) : Text × Text :=
  match s with
  | b :: rest => if isSign b then ([b], rest) else ([], s)
  | [] => ([], [])

/-- A zero, or digits. -/
def integerPart : Reader Text := fun s =>
  match s with
  | b :: rest => if b = 0x30 then some ([b], rest) else digits s
  | [] => none

def fraction : Reader Text := fun s =>
  match s with
  | b :: rest =>
    if b = 0x2E then (digits rest).map fun r => (b :: r.1, r.2) else some ([], s)
  | [] => some ([], [])

def exponent : Reader Text := fun s =>
  match s with
  | b :: rest =>
    if b = 0x65 ∨ b = 0x45 then
      let signed := sign (fun c => c = 0x2B || c = 0x2D) rest
      (digits signed.2).map fun r => (b :: (signed.1 ++ r.1), r.2)
    else some ([], s)
  | [] => some ([], [])

def number : Reader Text := fun s => do
  let signed := sign (fun b => b = 0x2D) s
  let (int, s) ← integerPart signed.2
  let (frac, s) ← fraction s
  let (exp, s) ← exponent s
  some (signed.1 ++ (int ++ (frac ++ exp)), s)

/-- A reader that gives back the text it takes. -/
def Verbatim (reader : Reader Text) : Prop := ∀ s w t, reader s = some (w, t) → s = w ++ t

theorem digits_verbatim : Verbatim digits := by
  intro s w t h
  rw [digits] at h
  split_ifs at h
  obtain ⟨rfl, rfl⟩ := Prod.mk.inj (Option.some.inj h)
  exact List.takeWhile_append_dropWhile.symm

theorem sign_append (isSign : UInt8 → Bool) (s : Text) :
    (sign isSign s).1 ++ (sign isSign s).2 = s := by
  cases s with
  | nil => rfl
  | cons b rest =>
    rw [sign]
    split_ifs <;> rfl

theorem integerPart_verbatim : Verbatim integerPart := by
  intro s w t h
  cases s with
  | nil => cases h
  | cons b rest =>
    rw [integerPart] at h
    split_ifs at h
    · obtain ⟨rfl, rfl⟩ := Prod.mk.inj (Option.some.inj h)
      rfl
    · exact digits_verbatim _ _ _ h

theorem fraction_verbatim : Verbatim fraction := by
  intro s w t h
  cases s with
  | nil =>
    obtain ⟨rfl, rfl⟩ := Prod.mk.inj (Option.some.inj h)
    rfl
  | cons b rest =>
    rw [fraction] at h
    split_ifs at h
    · obtain ⟨⟨d, t'⟩, hd, h⟩ := Option.map_eq_some_iff.mp h
      obtain ⟨rfl, rfl⟩ := Prod.mk.inj h
      rw [digits_verbatim _ _ _ hd, List.cons_append]
    · obtain ⟨rfl, rfl⟩ := Prod.mk.inj (Option.some.inj h)
      rfl

theorem exponent_verbatim : Verbatim exponent := by
  intro s w t h
  cases s with
  | nil =>
    obtain ⟨rfl, rfl⟩ := Prod.mk.inj (Option.some.inj h)
    rfl
  | cons b rest =>
    rw [exponent] at h
    split_ifs at h
    · obtain ⟨⟨d, t'⟩, hd, h⟩ := Option.map_eq_some_iff.mp h
      obtain ⟨rfl, rfl⟩ := Prod.mk.inj h
      rw [List.cons_append, List.append_assoc, ← digits_verbatim _ _ _ hd, sign_append]
    · obtain ⟨rfl, rfl⟩ := Prod.mk.inj (Option.some.inj h)
      rfl

theorem number_verbatim : Verbatim number := by
  intro s w t h
  obtain ⟨⟨int, s₁⟩, hint, h⟩ := Option.bind_eq_some_iff.mp h
  obtain ⟨⟨frac, s₂⟩, hfrac, h⟩ := Option.bind_eq_some_iff.mp h
  obtain ⟨⟨exp, s₃⟩, hexp, h⟩ := Option.bind_eq_some_iff.mp h
  obtain ⟨rfl, rfl⟩ := Prod.mk.inj (Option.some.inj h)
  calc
    s = (sign (fun b => b = 0x2D) s).1 ++ (sign (fun b => b = 0x2D) s).2 := (sign_append _ s).symm
    _ = (sign (fun b => b = 0x2D) s).1 ++ (int ++ (frac ++ (exp ++ s₃))) := by
      rw [integerPart_verbatim _ _ _ hint, fraction_verbatim _ _ _ hfrac,
        exponent_verbatim _ _ _ hexp]
    _ = _ := by simp only [List.append_assoc]

/-- A text that a number does not go on with. -/
def Stops (t : Text) : Prop :=
  ∀ b s, t = b :: s → isDigit b = false ∧ b ≠ 0x2E ∧ b ≠ 0x65 ∧ b ≠ 0x45

/-- Digits without a leading zero. -/
structure Decimal (w : Text) : Prop where
  ne_nil : w ≠ []
  digits : ∀ b ∈ w, isDigit b = true
  head : ∀ d s, w = 0x30 :: d :: s → False

theorem digits_append {w t : Text} (hne : w ≠ []) (hw : ∀ b ∈ w, isDigit b = true)
    (ht : Stops t) : digits (w ++ t) = some (w, t) := by
  have htake : t.takeWhile isDigit = [] := by
    cases t with
    | nil => rfl
    | cons b s => rw [List.takeWhile_cons_of_neg (by rw [(ht b s rfl).1]; exact Bool.false_ne_true)]
  have hdrop : t.dropWhile isDigit = t := by
    cases t with
    | nil => rfl
    | cons b s => rw [List.dropWhile_cons_of_neg (by rw [(ht b s rfl).1]; exact Bool.false_ne_true)]
  rw [digits, List.takeWhile_append_of_pos hw, List.dropWhile_append_of_pos hw, htake, hdrop,
    List.append_nil, if_neg hne]

theorem integerPart_append {w t : Text} (hw : Decimal w) (ht : Stops t) :
    integerPart (w ++ t) = some (w, t) := by
  have hdigits := digits_append hw.ne_nil hw.digits ht
  cases w with
  | nil => exact absurd rfl hw.ne_nil
  | cons b rest =>
    rw [List.cons_append] at hdigits ⊢
    rw [integerPart, hdigits]
    split_ifs with hzero
    · cases rest with
      | nil => rw [List.nil_append]
      | cons d s => exact (hw.head d s (by rw [hzero])).elim
    · rfl

theorem fraction_of_stops {t : Text} (ht : Stops t) : fraction t = some ([], t) := by
  cases t with
  | nil => rfl
  | cons b s => rw [fraction, if_neg (ht b s rfl).2.1]

theorem exponent_of_stops {t : Text} (ht : Stops t) : exponent t = some ([], t) := by
  cases t with
  | nil => rfl
  | cons b s =>
    have hb : ¬(b = 0x65 ∨ b = 0x45) := not_or.mpr (ht b s rfl).2.2
    rw [exponent, if_neg hb]

/-- A sign or none and a decimal number. -/
def IsInteger (w : Text) : Prop := Decimal w ∨ ∃ d, w = 0x2D :: d ∧ Decimal d

theorem number_append {w t : Text} (hw : IsInteger w) (ht : Stops t) :
    number (w ++ t) = some (w, t) := by
  have hnumber (minus d : Text) (hd : Decimal d)
      (hsign : sign (fun b => b = 0x2D) (minus ++ d ++ t) = (minus, d ++ t)) :
      number (minus ++ d ++ t) = some (minus ++ d, t) := by
    rw [number, hsign]
    simp only [Option.bind_eq_bind, integerPart_append hd ht, fraction_of_stops ht,
      exponent_of_stops ht, Option.bind_some, List.append_nil]
  obtain hd | ⟨d, rfl, hd⟩ := hw
  · apply hnumber [] w hd
    cases w with
    | nil => exact absurd rfl hd.ne_nil
    | cons b rest =>
      have hb : ¬(b = 0x2D) := by
        rintro rfl
        exact absurd (hd.digits 0x2D List.mem_cons_self) (by decide)
      rw [List.nil_append, List.cons_append, sign, if_neg (by simpa using hb)]
  · exact hnumber [0x2D] d hd rfl

/-! Values. Numbers are kept as their texts, and the members of an object in their order. -/

inductive Value
  | null
  | boolean (b : Bool)
  | number (w : Text)
  | string (s : Text)
  | array (elements : List Value)
  | object (members : List (Text × Value))

/-- Which strings and numbers a reader takes. -/
structure Dialect where
  takesString : Text → Bool
  takesNumber : Text → Bool

def nullText : Text := [0x6E, 0x75, 0x6C, 0x6C]
def trueText : Text := [0x74, 0x72, 0x75, 0x65]
def falseText : Text := [0x66, 0x61, 0x6C, 0x73, 0x65]

def boolText (b : Bool) : Text := if b then trueText else falseText

variable (d : Dialect)

def string : Reader Text := fun s => do
  let s ← symbol quote s
  let (w, s) ← scan .plain s
  if d.takesString w then some (w, s) else none

/-- A value that starts with none of the quote, the bracket and the brace. -/
def scalar : Reader Value := fun s =>
  if nullText.isPrefixOf s then some (.null, s.drop 4)
  else if trueText.isPrefixOf s then some (.boolean true, s.drop 4)
  else if falseText.isPrefixOf s then some (.boolean false, s.drop 5)
  else do
    let (w, s) ← number s
    if d.takesNumber w then some (.number w, s) else none

def member (value : Reader Value) : Reader (Text × Value) := fun s => do
  let (key, s) ← string d s
  let s ← symbol colon s
  let (v, s) ← value s
  some ((key, v), s)

/-- A value that is not nested deeper than a bound. -/
def value : ℕ → Reader Value
  | 0, _ => none
  | depth + 1, s =>
    match skip s with
    | [] => none
    | b :: rest =>
      if b = quote then (string d (b :: rest)).map fun r => (.string r.1, r.2)
      else if b = 0x5B then (items (value depth) 0x5D rest).map fun r => (.array r.1, r.2)
      else if b = 0x7B then
        (items (member d (value depth)) 0x7D rest).map fun r => (.object r.1, r.2)
      else scalar d (b :: rest)

/-- The value a text starts with; nothing is nested deeper than the text is long. -/
def read (s : Text) : Option (Value × Text) := value d s.length s

/-- The least text of a value, with a nested one counted as one byte. -/
def shallowSize : Value → ℕ
  | .null => 4
  | .boolean b => (boolText b).length
  | .number w => w.length
  | .string s => stringSize s + 2
  | .array _ | .object _ => 1

def memberSize (m : Text × Value) : ℕ := stringSize m.1 + 3 + shallowSize m.2

/-- The same, with the members of an object counted. -/
def size : Value → ℕ
  | .object members => 1 + total memberSize members
  | v => shallowSize v

theorem shallowSize_le_size (v : Value) : shallowSize v ≤ size v := by
  cases v with
  | object members => exact Nat.le_add_right 1 _
  | _ => exact Nat.le_refl _

variable {d}

theorem string_bounded : Bounded (fun w => stringSize w + 2) (string d) := by
  intro s w t h
  obtain ⟨s₁, hquote, h⟩ := Option.bind_eq_some_iff.mp h
  obtain ⟨⟨w', s₂⟩, hscan, h⟩ := Option.bind_eq_some_iff.mp h
  dsimp only at h
  split_ifs at h
  obtain ⟨rfl, rfl⟩ := Prod.mk.inj (Option.some.inj h)
  have hsymbol := length_of_symbol hquote
  have hsize := scan_bounded hscan
  rw [ScanState.pending] at hsize
  dsimp only
  omega

theorem length_of_isPrefixOf {w s : Text} (h : w.isPrefixOf s = true) :
    w.length + (s.drop w.length).length = s.length := by
  have hle := (List.isPrefixOf_iff_prefix.mp h).length_le
  rw [List.length_drop]
  omega

theorem scalar_bounded : Bounded size (scalar d) := by
  intro s v t h
  rw [scalar] at h
  split_ifs at h with hnull htrue hfalse
  · obtain ⟨rfl, rfl⟩ := Prod.mk.inj (Option.some.inj h)
    exact Nat.le_of_eq (length_of_isPrefixOf hnull)
  · obtain ⟨rfl, rfl⟩ := Prod.mk.inj (Option.some.inj h)
    exact Nat.le_of_eq (length_of_isPrefixOf htrue)
  · obtain ⟨rfl, rfl⟩ := Prod.mk.inj (Option.some.inj h)
    exact Nat.le_of_eq (length_of_isPrefixOf hfalse)
  · obtain ⟨⟨w, s₁⟩, hnumber, h⟩ := Option.bind_eq_some_iff.mp h
    dsimp only at h
    split_ifs at h
    obtain ⟨rfl, rfl⟩ := Prod.mk.inj (Option.some.inj h)
    rw [number_verbatim _ _ _ hnumber, List.length_append]
    exact Nat.le_refl _

theorem member_eq_some {reader : Reader Value} {s t : Text} {m : Text × Value}
    (h : member d reader s = some (m, t)) : ∃ s₁ s₂, string d s = some (m.1, s₁) ∧
      symbol colon s₁ = some s₂ ∧ reader s₂ = some (m.2, t) := by
  obtain ⟨⟨key, s₁⟩, hkey, h⟩ := Option.bind_eq_some_iff.mp h
  obtain ⟨s₂, hcolon, h⟩ := Option.bind_eq_some_iff.mp h
  obtain ⟨⟨v, s₃⟩, hv, h⟩ := Option.bind_eq_some_iff.mp h
  obtain ⟨rfl, rfl⟩ := Prod.mk.inj (Option.some.inj h)
  exact ⟨s₁, s₂, hkey, hcolon, hv⟩

theorem member_bounded {reader : Reader Value} (hreader : Bounded size reader) :
    Bounded memberSize (member d reader) := by
  intro s m t h
  obtain ⟨s₁, s₂, hkey, hcolon, hv⟩ := member_eq_some h
  have hstring := string_bounded _ _ _ hkey
  have hsymbol := length_of_symbol hcolon
  have hvalue := hreader _ _ _ hv
  have hshallow := shallowSize_le_size m.2
  rw [memberSize]
  dsimp only at hstring
  omega

/-- How a value is read: what its text starts with after the blanks decides which reader takes the
rest. -/
inductive ValueRead (d : Dialect) (depth : ℕ) (s : Text) : Value → Text → Prop
  | string {w t : Text} (hw : string d (skip s) = some (w, t)) : ValueRead d depth s (.string w) t
  | array {rest t : Text} {elements : List Value} (hs : skip s = 0x5B :: rest)
    (helements : items (value d depth) 0x5D rest = some (elements, t)) :
    ValueRead d depth s (.array elements) t
  | object {rest t : Text} {members : List (Text × Value)} (hs : skip s = 0x7B :: rest)
    (hmembers : items (member d (value d depth)) 0x7D rest = some (members, t)) :
    ValueRead d depth s (.object members) t
  | scalar {t : Text} {v : Value} (hv : scalar d (skip s) = some (v, t)) : ValueRead d depth s v t

theorem valueRead_of_value {depth : ℕ} {s t : Text} {v : Value}
    (h : value d (depth + 1) s = some (v, t)) : ValueRead d depth s v t := by
  rw [value] at h
  cases hs : skip s with
  | nil =>
    rw [hs] at h
    cases h
  | cons b rest =>
    rw [hs] at h
    dsimp only at h
    split_ifs at h with hquote hbracket hbrace
    · obtain ⟨⟨w, t'⟩, hw, h⟩ := Option.map_eq_some_iff.mp h
      obtain ⟨rfl, rfl⟩ := Prod.mk.inj h
      exact .string (hs ▸ hw)
    · obtain ⟨⟨elements, t'⟩, helements, h⟩ := Option.map_eq_some_iff.mp h
      obtain ⟨rfl, rfl⟩ := Prod.mk.inj h
      exact .array (hs.trans (by rw [hbracket])) helements
    · obtain ⟨⟨members, t'⟩, hmembers, h⟩ := Option.map_eq_some_iff.mp h
      obtain ⟨rfl, rfl⟩ := Prod.mk.inj h
      exact .object (hs.trans (by rw [hbrace])) hmembers
    · exact .scalar (hs ▸ h)

/-- No text is shorter than the value it starts with. -/
theorem value_bounded (depth : ℕ) : Bounded size (value d depth) := by
  induction depth with
  | zero =>
    intro s v t h
    cases h
  | succ depth ih =>
    intro s v t h
    have hskip := length_skip_le s
    cases valueRead_of_value h with
    | @string w _ hw =>
      have hstring := string_bounded _ _ _ hw
      have hsize : size (.string w) = stringSize w + 2 := rfl
      dsimp only at hstring
      omega
    | @array rest _ elements hs helements =>
      have hitems := items_bounded ih _ _ _ helements
      have hsize : size (.array elements) = 1 := rfl
      rw [hs, List.length_cons] at hskip
      omega
    | @object rest _ members hs hmembers =>
      have hitems := items_bounded (member_bounded ih) _ _ _ hmembers
      have hsize : size (.object members) = 1 + total memberSize members := rfl
      rw [hs, List.length_cons] at hskip
      omega
    | scalar hv =>
      have hscalar := scalar_bounded _ _ _ hv
      omega

variable (d)

/-- The values whose strings are all taken. -/
inductive Taken : Value → Prop
  | null : Taken .null
  | boolean (b : Bool) : Taken (.boolean b)
  | number (w : Text) : Taken (.number w)
  | string {s : Text} (htakes : d.takesString s = true) : Taken (.string s)
  | array {elements : List Value} (helements : ∀ v ∈ elements, Taken v) : Taken (.array elements)
  | object {members : List (Text × Value)} (hkeys : ∀ m ∈ members, d.takesString m.1 = true)
      (hmembers : ∀ m ∈ members, Taken m.2) : Taken (.object members)

variable {d}

theorem takesString_of_string {s w t : Text} (h : string d s = some (w, t)) :
    d.takesString w = true := by
  obtain ⟨s₁, -, h⟩ := Option.bind_eq_some_iff.mp h
  obtain ⟨⟨w', s₂⟩, -, h⟩ := Option.bind_eq_some_iff.mp h
  dsimp only at h
  split_ifs at h with htakes
  obtain ⟨rfl, rfl⟩ := Prod.mk.inj (Option.some.inj h)
  exact htakes

theorem taken_of_scalar {s t : Text} {v : Value} (h : scalar d s = some (v, t)) : Taken d v := by
  rw [scalar] at h
  split_ifs at h
  · obtain ⟨rfl, rfl⟩ := Prod.mk.inj (Option.some.inj h)
    exact Taken.null
  · obtain ⟨rfl, rfl⟩ := Prod.mk.inj (Option.some.inj h)
    exact Taken.boolean true
  · obtain ⟨rfl, rfl⟩ := Prod.mk.inj (Option.some.inj h)
    exact Taken.boolean false
  · obtain ⟨⟨w, s₁⟩, -, h⟩ := Option.bind_eq_some_iff.mp h
    dsimp only at h
    split_ifs at h
    obtain ⟨rfl, rfl⟩ := Prod.mk.inj (Option.some.inj h)
    exact Taken.number w

/-- Every value that is read has only strings that are taken. -/
theorem taken_of_value {depth : ℕ} {s t : Text} {v : Value} (h : value d depth s = some (v, t)) :
    Taken d v := by
  induction depth generalizing s v t with
  | zero => cases h
  | succ depth ih =>
    cases valueRead_of_value h with
    | string hw => exact Taken.string (takesString_of_string hw)
    | array hs helements => exact Taken.array (items_forall (fun s a t ha => ih ha) helements)
    | @object rest _ members hs hmembers =>
      have htaken : ∀ m ∈ members, d.takesString m.1 = true ∧ Taken d m.2 := by
        refine items_forall (P := fun m => d.takesString m.1 = true ∧ Taken d m.2) ?_ hmembers
        intro s m t hm
        obtain ⟨s₁, s₂, hkey, -, hv⟩ := member_eq_some hm
        exact ⟨takesString_of_string hkey, ih hv⟩
      exact Taken.object (fun m hm => (htaken m hm).1) fun m hm => (htaken m hm).2
    | scalar hv => exact taken_of_scalar hv

/-! The writer, which puts every element and member on a line of its own. -/

/-- The start of a line. -/
def line (indent : ℕ) : Text := 0x0A :: List.replicate indent 0x20

mutual

def write (step indent : ℕ) : Value → Text
  | .null => nullText
  | .boolean b => boolText b
  | .number w => w
  | .string s => quote :: (escape s ++ [quote])
  | .array elements =>
    if elements.isEmpty then [0x5B, 0x5D]
    else 0x5B :: (writeElements step (indent + step) elements ++ (line indent ++ [0x5D]))
  | .object members =>
    if members.isEmpty then [0x7B, 0x7D]
    else 0x7B :: (writeMembers step (indent + step) members ++ (line indent ++ [0x7D]))

def writeElements (step indent : ℕ) : List Value → Text
  | [] => []
  | [v] => line indent ++ write step indent v
  | v :: next :: elements =>
    line indent ++ write step indent v ++ comma :: writeElements step indent (next :: elements)

def writeMembers (step indent : ℕ) : List (Text × Value) → Text
  | [] => []
  | [m] => writeMember step indent m
  | m :: next :: members =>
    writeMember step indent m ++ comma :: writeMembers step indent (next :: members)

def writeMember (step indent : ℕ) : Text × Value → Text
  | (key, v) =>
    line indent ++ quote :: (escape key ++ quote :: colon :: 0x20 :: write step indent v)

end

variable (d)

/-- The values whose strings and numbers a reader takes. -/
inductive Written : Value → Prop
  | null : Written .null
  | boolean (b : Bool) : Written (.boolean b)
  | number {w : Text} (hw : IsInteger w) (htakes : d.takesNumber w = true) : Written (.number w)
  | string {s : Text} (htakes : d.takesString s = true) : Written (.string s)
  | array {elements : List Value} (helements : ∀ v ∈ elements, Written v) :
      Written (.array elements)
  | object {members : List (Text × Value)} (hkeys : ∀ m ∈ members, d.takesString m.1 = true)
      (hmembers : ∀ m ∈ members, Written m.2) : Written (.object members)

variable {d}

/-- What may stand behind a value. -/
def Ends (t : Text) : Prop :=
  ∃ b s, t = b :: s ∧ (isSpace b = true ∨ b = comma ∨ b = 0x5D ∨ b = 0x7D)

theorem stops_of_ends {t : Text} (h : Ends t) : Stops t := by
  have hall : ∀ b : UInt8, isSpace b = true ∨ b = comma ∨ b = 0x5D ∨ b = 0x7D →
      isDigit b = false ∧ b ≠ 0x2E ∧ b ≠ 0x65 ∧ b ≠ 0x45 := forall_byte (by decide +kernel)
  obtain ⟨b, s, rfl, hb⟩ := h
  intro c t heq
  obtain ⟨rfl, rfl⟩ := List.cons.inj heq
  exact hall b hb

theorem writeElements_eq (step indent : ℕ) (elements : List Value) :
    writeElements step indent elements =
      joined (fun v => line indent ++ write step indent v) elements := by
  induction elements with
  | nil => rfl
  | cons v elements ih =>
    cases elements with
    | nil => rfl
    | cons next elements => rw [writeElements, joined, ih]

theorem writeMembers_eq (step indent : ℕ) (members : List (Text × Value)) :
    writeMembers step indent members = joined (writeMember step indent) members := by
  induction members with
  | nil => rfl
  | cons m members ih =>
    cases members with
    | nil => rfl
    | cons next members => rw [writeMembers, joined, ih]

theorem blank_line (indent : ℕ) : Blank (line indent) := by
  intro b hb
  obtain rfl | hb := List.mem_cons.mp hb
  · rfl
  · rw [List.eq_of_mem_replicate hb]
    rfl

theorem IsInteger.head {w : Text} (h : IsInteger w) :
    ∃ b s, w = b :: s ∧ (isDigit b = true ∨ b = 0x2D) := by
  obtain hd | ⟨d, rfl, hd⟩ := h
  · cases w with
    | nil => exact absurd rfl hd.ne_nil
    | cons b s => exact ⟨b, s, rfl, Or.inl (hd.digits b List.mem_cons_self)⟩
  · exact ⟨0x2D, d, rfl, Or.inr rfl⟩

/-- What the first byte of a number is not. -/
theorem ne_of_number_head : ∀ b : UInt8, isDigit b = true ∨ b = 0x2D →
    isSpace b = false ∧ b ≠ 0x5D ∧ b ≠ quote ∧ b ≠ 0x5B ∧ b ≠ 0x7B ∧ b ≠ 0x6E ∧ b ≠ 0x74 ∧
      b ≠ 0x66 :=
  forall_byte (by decide +kernel)

/-- A value does not start with white space or a closing byte. -/
theorem write_head {v : Value} (h : Written d v) (step indent : ℕ) :
    ∃ b s, write step indent v = b :: s ∧ isSpace b = false ∧ b ≠ 0x5D := by
  cases h with
  | null => exact ⟨_, _, rfl, rfl, by decide⟩
  | boolean b => cases b <;> exact ⟨_, _, rfl, rfl, by decide⟩
  | number hw _ =>
    obtain ⟨b, s, rfl, hb⟩ := hw.head
    exact ⟨b, s, rfl, (ne_of_number_head b hb).1, (ne_of_number_head b hb).2.1⟩
  | string _ => exact ⟨_, _, rfl, rfl, by decide⟩
  | array _ =>
    rw [write]
    split_ifs <;> exact ⟨_, _, rfl, rfl, by decide⟩
  | object _ _ =>
    rw [write]
    split_ifs <;> exact ⟨_, _, rfl, rfl, by decide⟩

theorem value_blank {w : Text} (hw : Blank w) (depth : ℕ) (s : Text) :
    value d depth (w ++ s) = value d depth s := by
  cases depth with
  | zero => rfl
  | succ depth => rw [value, value, skip_append hw]

theorem string_escape {s : Text} (htakes : d.takesString s = true) (w t : Text) (hw : Blank w) :
    string d (w ++ quote :: (escape s ++ quote :: t)) = some (s, t) := by
  rw [string, symbol_append hw rfl]
  simp only [Option.bind_eq_bind, Option.bind_some, scan_escape, htakes, ↓reduceIte]

theorem scalar_number {w t : Text} (hw : IsInteger w) (htakes : d.takesNumber w = true)
    (ht : Stops t) : scalar d (w ++ t) = some (.number w, t) := by
  obtain ⟨b, s, rfl, hb⟩ := hw.head
  obtain ⟨-, -, -, -, -, hnull, htrue, hfalse⟩ := ne_of_number_head b hb
  have hnumber := number_append hw ht
  have hliteral {c : UInt8} (hc : b ≠ c) (l : Text) :
      (c :: l).isPrefixOf (b :: s ++ t) = false := by
    rw [List.cons_append, List.isPrefixOf, beq_false_of_ne hc.symm, Bool.false_and]
  rw [scalar, nullText, trueText, falseText, hliteral hnull, hliteral htrue, hliteral hfalse,
    hnumber]
  simp only [Bool.false_eq_true, ↓reduceIte, Option.bind_eq_bind, Option.bind_some, htakes]

theorem value_number {w t : Text} (hw : IsInteger w) (htakes : d.takesNumber w = true)
    (ht : Stops t) (depth : ℕ) : value d (depth + 1) (w ++ t) = some (.number w, t) := by
  have hscalar := scalar_number hw htakes ht
  obtain ⟨b, s, rfl, hb⟩ := hw.head
  obtain ⟨hspace, -, hquote, hbracket, hbrace, -⟩ := ne_of_number_head b hb
  rw [List.cons_append] at hscalar ⊢
  rw [value, skip_cons hspace]
  simp only [hquote, hbracket, hbrace, ↓reduceIte, hscalar]

theorem value_literal (t : Text) (depth : ℕ) :
    value d (depth + 1) (nullText ++ t) = some (.null, t) ∧
      ∀ b, value d (depth + 1) (boolText b ++ t) = some (.boolean b, t) := by
  refine ⟨rfl, fun b => ?_⟩
  cases b <;> rfl

theorem value_string {s : Text} (htakes : d.takesString s = true) (depth : ℕ) (t : Text) :
    value d (depth + 1) (quote :: (escape s ++ quote :: t)) = some (.string s, t) := by
  have hstring := string_escape htakes [] t (fun b hb => by cases hb)
  rw [List.nil_append] at hstring
  rw [value, skip_cons rfl]
  simp only [↓reduceIte, hstring, Option.map_some]

theorem length_le_of_mem_joined {α : Type} (write : α → Text) {a : α} {as : List α} (h : a ∈ as) :
    (write a).length ≤ (joined write as).length := by
  induction as with
  | nil => cases h
  | cons b as ih =>
    cases as with
    | nil =>
      rw [List.mem_singleton.mp h]
      exact Nat.le_refl _
    | cons c as =>
      rw [joined, List.length_append, List.length_cons]
      obtain rfl | h := List.mem_cons.mp h
      · omega
      · have hle := ih h
        omega

theorem ends_comma (t : Text) : Ends (comma :: t) := ⟨comma, t, rfl, Or.inr (Or.inl rfl)⟩

theorem ends_line (indent : ℕ) (t : Text) : Ends (line indent ++ t) :=
  ⟨0x0A, List.replicate indent 0x20 ++ t, rfl, Or.inl rfl⟩

/-- A list is read back where its elements are. -/
theorem items_line {α : Type} {item : Reader α} {write : α → Text} {close : UInt8} {as : List α}
    (has : as ≠ []) (hread : ∀ a ∈ as, ReadsBack Ends item write a)
    (hclose : isSpace close = false) (hne : close ≠ comma)
    (hhead : ∀ a ∈ as, ∀ s, symbol close (write a ++ s) = none) (indent : ℕ) (t : Text) :
    items item close (joined write as ++ (line indent ++ close :: t)) = some (as, t) := by
  apply items_joined has hread (blank_line indent) hclose hne ends_comma (ends_line indent _)
  intro s
  cases as with
  | nil => exact absurd rfl has
  | cons a as =>
    have ha := hhead a List.mem_cons_self
    cases as with
    | nil => exact ha s
    | cons b as =>
      rw [joined, List.append_assoc]
      exact ha _

theorem symbol_line {indent : ℕ} {w : Text} {b close : UInt8} {s : Text} (hw : w = b :: s)
    (hspace : isSpace b = false) (hne : b ≠ close) (t : Text) :
    symbol close (line indent ++ w ++ t) = none := by
  rw [List.append_assoc, symbol, skip_append (blank_line indent), hw, List.cons_append,
    skip_cons hspace]
  simp only [hne, ↓reduceIte]

theorem exists_depth {v : Value} (h : Written d v) {step indent depth : ℕ}
    (hdepth : (write step indent v).length ≤ depth) : ∃ k, depth = k + 1 := by
  obtain ⟨b, s, hw, -⟩ := write_head h step indent
  rw [hw, List.length_cons] at hdepth
  exact ⟨depth - 1, by omega⟩

theorem write_array {step indent : ℕ} {elements : List Value} (hne : elements ≠ []) :
    write step indent (.array elements) = 0x5B ::
      (joined (fun v => line (indent + step) ++ write step (indent + step) v) elements ++
        (line indent ++ [0x5D])) := by
  rw [write, if_neg (by simpa using hne), writeElements_eq]

theorem write_object {step indent : ℕ} {members : List (Text × Value)} (hne : members ≠ []) :
    write step indent (.object members) = 0x7B ::
      (joined (writeMember step (indent + step)) members ++ (line indent ++ [0x7D])) := by
  rw [write, if_neg (by simpa using hne), writeMembers_eq]

theorem value_array {step indent depth : ℕ} {elements : List Value}
    (ih : ∀ v ∈ elements, ReadsBack Ends (value d depth) (write step (indent + step)) v)
    (hwritten : ∀ v ∈ elements, Written d v) :
    ReadsBack Ends (value d (depth + 1)) (write step indent) (.array elements) := by
  intro t _
  by_cases hempty : elements = []
  · rw [hempty]
    rfl
  have hitems : items (value d depth) 0x5D
      (joined (fun v => line (indent + step) ++ write step (indent + step) v) elements ++
        (line indent ++ 0x5D :: t)) = some (elements, t) := by
    apply items_line hempty
    · intro v hv s hs
      rw [List.append_assoc, value_blank (blank_line _)]
      exact ih v hv s hs
    · rfl
    · decide
    · intro v hv s
      obtain ⟨b, w, hw, hspace, hne⟩ := write_head (hwritten v hv) step (indent + step)
      exact symbol_line hw hspace hne s
  rw [write_array hempty, List.cons_append, List.append_assoc, List.append_assoc,
    List.singleton_append, value, skip_cons rfl]
  have hquote : ¬((0x5B : UInt8) = quote) := by decide
  simp only [hquote, ↓reduceIte, hitems, Option.map_some]

/-- A member is read back with white space at its places. -/
theorem member_append {depth step indent : ℕ} {m : Text × Value} {w₁ w₂ t : Text}
    (hw₁ : Blank w₁) (hw₂ : Blank w₂) (hkey : d.takesString m.1 = true)
    (ih : value d depth (write step indent m.2 ++ t) = some (m.2, t)) :
    member d (value d depth) (w₁ ++ quote :: (escape m.1 ++ quote :: colon ::
      (w₂ ++ (write step indent m.2 ++ t)))) = some (m, t) := by
  have hvalue : value d depth (w₂ ++ (write step indent m.2 ++ t)) = some (m.2, t) :=
    (value_blank hw₂ depth _).trans ih
  have hcolon : symbol colon (colon :: (w₂ ++ (write step indent m.2 ++ t))) =
      some (w₂ ++ (write step indent m.2 ++ t)) := rfl
  rw [member, string_escape hkey _ _ hw₁]
  simp only [Option.bind_eq_bind, Option.bind_some, hcolon, hvalue]

theorem member_write {step indent depth : ℕ} {m : Text × Value}
    (hkey : d.takesString m.1 = true)
    (ih : ReadsBack Ends (value d depth) (write step indent) m.2) :
    ReadsBack Ends (member d (value d depth)) (writeMember step indent) m := by
  intro t ht
  have hblank : Blank [0x20] := fun b hb => by rw [List.mem_singleton.mp hb]; rfl
  have htext : writeMember step indent m ++ t =
      line indent ++ quote :: (escape m.1 ++ quote :: colon ::
        ([0x20] ++ (write step indent m.2 ++ t))) := by
    rw [writeMember]
    simp only [List.append_assoc, List.cons_append, List.nil_append]
  rw [htext]
  exact member_append (blank_line indent) hblank hkey (ih t ht)

theorem value_object {step indent depth : ℕ} {members : List (Text × Value)}
    (hkeys : ∀ m ∈ members, d.takesString m.1 = true)
    (ih : ∀ m ∈ members, ReadsBack Ends (value d depth) (write step (indent + step)) m.2) :
    ReadsBack Ends (value d (depth + 1)) (write step indent) (.object members) := by
  intro t _
  by_cases hempty : members = []
  · rw [hempty]
    rfl
  have hitems : items (member d (value d depth)) 0x7D
      (joined (writeMember step (indent + step)) members ++ (line indent ++ 0x7D :: t)) =
        some (members, t) := by
    apply items_line hempty
    · intro m hm
      exact member_write (hkeys m hm) (ih m hm)
    · rfl
    · decide
    · intro m _ s
      rw [writeMember]
      exact symbol_line rfl rfl (by decide) s
  rw [write_object hempty, List.cons_append, List.append_assoc, List.append_assoc,
    List.singleton_append, value, skip_cons rfl]
  have hquote : ¬((0x7B : UInt8) = quote) := by decide
  have hbracket : ¬((0x7B : UInt8) = 0x5B) := by decide
  simp only [hquote, hbracket, ↓reduceIte, hitems, Option.map_some]

/-- A value is read back from its writing. The induction is on the value; the bound on the nesting
is the length of the text, and every nested value has a shorter one. -/
theorem value_write {v : Value} (h : Written d v) (step : ℕ) : ∀ indent depth,
    (write step indent v).length ≤ depth →
      ReadsBack Ends (value d depth) (write step indent) v := by
  induction h with
  | null =>
    intro indent depth hdepth t _
    obtain ⟨k, rfl⟩ := exists_depth (Written.null : Written d _) hdepth
    exact (value_literal t k).1
  | boolean b =>
    intro indent depth hdepth t _
    obtain ⟨k, rfl⟩ := exists_depth (Written.boolean b : Written d _) hdepth
    exact (value_literal t k).2 b
  | number hw htakes =>
    intro indent depth hdepth t ht
    obtain ⟨k, rfl⟩ := exists_depth (Written.number hw htakes) hdepth
    exact value_number hw htakes (stops_of_ends ht) k
  | string htakes =>
    intro indent depth hdepth t _
    obtain ⟨k, rfl⟩ := exists_depth (Written.string htakes) hdepth
    rw [write, List.cons_append, List.append_assoc, List.singleton_append]
    exact value_string htakes k t
  | @array elements helements ih =>
    intro indent depth hdepth
    obtain ⟨k, rfl⟩ := exists_depth (Written.array helements) hdepth
    refine value_array (fun v hv => ih v hv (indent + step) k ?_) helements
    have hmem := length_le_of_mem_joined
      (fun v => line (indent + step) ++ write step (indent + step) v) hv
    rw [write_array (List.ne_nil_of_mem hv), List.length_cons, List.length_append] at hdepth
    rw [List.length_append] at hmem
    omega
  | @object members hkeys hmembers ih =>
    intro indent depth hdepth
    obtain ⟨k, rfl⟩ := exists_depth (Written.object hkeys hmembers) hdepth
    refine value_object hkeys (fun m hm => ih m hm (indent + step) k ?_)
    have hmem := length_le_of_mem_joined (writeMember step (indent + step)) hm
    rw [write_object (List.ne_nil_of_mem hm), List.length_cons, List.length_append] at hdepth
    rw [writeMember] at hmem
    simp only [List.length_append, List.length_cons] at hmem
    omega

/-- The round trip of a text, with anything behind it that can stand behind a value. -/
theorem read_write {v : Value} (h : Written d v) (step indent : ℕ) {t : Text} (ht : Ends t) :
    read d (write step indent v ++ t) = some (v, t) := by
  apply value_write h step indent _ _ t ht
  rw [List.length_append]
  omega

/-! Objects of values that are no lists or objects, written without white space. -/

def compactMember (m : Text × Value) : Text :=
  quote :: (escape m.1 ++ quote :: colon :: write 0 0 m.2)

def compactObject (members : List (Text × Value)) : Text :=
  0x7B :: (joined compactMember members ++ [0x7D])

theorem read_compactObject {members : List (Text × Value)} (hne : members ≠ [])
    (hkeys : ∀ m ∈ members, d.takesString m.1 = true)
    (hmembers : ∀ m ∈ members, Written d m.2) :
    read d (compactObject members) = some (.object members, []) := by
  have hnil : Blank [] := fun b hb => by cases hb
  let depth := (joined compactMember members ++ [0x7D]).length
  have hdepth (m : Text × Value) (hm : m ∈ members) : (write 0 0 m.2).length ≤ depth := by
    have hle := length_le_of_mem_joined compactMember hm
    rw [compactMember] at hle
    simp only [List.length_append, List.length_cons, depth] at hle ⊢
    omega
  have hends : Ends ([] ++ 0x7D :: []) := ⟨0x7D, [], rfl, Or.inr (Or.inr (Or.inr rfl))⟩
  have hitems : items (member d (value d depth)) 0x7D
      (joined compactMember members ++ ([] ++ 0x7D :: [])) = some (members, []) := by
    apply items_joined hne _ hnil rfl (by decide) ends_comma hends
    · intro s
      cases members with
      | nil => exact absurd rfl hne
      | cons m members => cases members <;> rfl
    · intro m hm t ht
      have hvalue := value_write (hmembers m hm) 0 0 depth (hdepth m hm) t ht
      have htext : compactMember m ++ t =
          [] ++ quote :: (escape m.1 ++ quote :: colon :: ([] ++ (write 0 0 m.2 ++ t))) := by
        simp only [compactMember, List.append_assoc, List.cons_append, List.nil_append]
      rw [htext]
      exact member_append hnil hnil (hkeys m hm) hvalue
  have hquote : ¬((0x7B : UInt8) = quote) := by decide
  have hbracket : ¬((0x7B : UInt8) = 0x5B) := by decide
  rw [List.nil_append] at hitems
  rw [read, compactObject, List.length_cons, value, skip_cons rfl]
  simp only [hquote, hbracket, ↓reduceIte]
  rw [hitems, Option.map_some]

theorem isInteger_intText (i : ℤ) : IsInteger (Decimals.intText i) := by
  have hdecimal (n : ℕ) : Decimal (Decimals.natText n) :=
    ⟨Decimals.natText_ne_nil n, Decimals.isDigit_natText n, Decimals.natText_head n⟩
  cases i with
  | ofNat n => exact Or.inl (hdecimal n)
  | negSucc n => exact Or.inr ⟨_, rfl, hdecimal (n + 1)⟩

end JsonText
