import OpenAPT.Lib.JsonText

/-! JSON texts with numbers that have a fraction or an exponent: such a number is read back where it
stands, and so is every value with such numbers in it. -/
namespace JsonText
open Readers

/-- A text that does not start with a digit. -/
def NoDigit (t : Text) : Prop := ∀ b s, t = b :: s → isDigit b = false

theorem digits_of_noDigit {w t : Text} (hne : w ≠ []) (hw : ∀ b ∈ w, isDigit b = true)
    (ht : NoDigit t) : digits (w ++ t) = some (w, t) := by
  have hrest : t.takeWhile isDigit = [] ∧ t.dropWhile isDigit = t := by
    cases t with
    | nil => exact ⟨rfl, rfl⟩
    | cons b s =>
      have hb : ¬ isDigit b = true := by
        rw [ht b s rfl]
        exact Bool.false_ne_true
      exact ⟨List.takeWhile_cons_of_neg hb, List.dropWhile_cons_of_neg hb⟩
  rw [digits, List.takeWhile_append_of_pos hw, List.dropWhile_append_of_pos hw, hrest.1, hrest.2,
    List.append_nil, if_neg hne]

/-- The part after a point, or nothing. -/
def IsFraction (w : Text) : Prop :=
  w = [] ∨ ∃ d, w = 0x2E :: d ∧ d ≠ [] ∧ ∀ b ∈ d, isDigit b = true

/-- An exponent with a sign or none, or nothing. -/
def IsExponent (w : Text) : Prop :=
  w = [] ∨ ∃ b sign d, w = b :: (sign ++ d) ∧ (b = 0x65 ∨ b = 0x45) ∧
    (sign = [] ∨ sign = [0x2B] ∨ sign = [0x2D]) ∧ d ≠ [] ∧ ∀ b ∈ d, isDigit b = true

/-- The grammar of numbers. -/
def IsNumber (w : Text) : Prop :=
  ∃ i f e, IsInteger i ∧ IsFraction f ∧ IsExponent e ∧ w = i ++ (f ++ e)

theorem IsInteger.isNumber {w : Text} (h : IsInteger w) : IsNumber w :=
  ⟨w, [], [], h, Or.inl rfl, Or.inl rfl, by rw [List.append_nil, List.append_nil]⟩

theorem Stops.noDigit {t : Text} (h : Stops t) : NoDigit t := fun b s ht => (h b s ht).1

/-- What follows the digits before an exponent is none. -/
theorem exponent_append {e t : Text} (he : IsExponent e) (ht : Stops t) :
    exponent (e ++ t) = some (e, t) := by
  obtain rfl | ⟨b, sgn, d, rfl, hb, hsgn, hne, hd⟩ := he
  · exact exponent_of_stops ht
  · have hdigits := digits_of_noDigit hne hd ht.noDigit
    -- where there is no sign, the first digit is not taken for one
    have hsign : sign (fun c => c = 0x2B || c = 0x2D) (sgn ++ d ++ t) = (sgn, d ++ t) := by
      rcases hsgn with rfl | rfl | rfl
      · cases d with
        | nil => exact absurd rfl hne
        | cons c d =>
          have hall : ∀ c : UInt8, isDigit c = true → (c = 0x2B || c = 0x2D) = false :=
            forall_byte (by decide +kernel)
          have hc := hall c (hd c List.mem_cons_self)
          simp only [List.nil_append, List.cons_append, sign, hc, Bool.false_eq_true, ↓reduceIte]
      · rfl
      · rfl
    rw [List.cons_append, exponent, if_pos hb]
    dsimp only
    rw [hsign]
    dsimp only
    rw [hdigits, Option.map_some]

theorem noDigit_exponent {e t : Text} (he : IsExponent e) (ht : Stops t) :
    NoDigit (e ++ t) ∧ ∀ s, e ++ t ≠ 0x2E :: s := by
  obtain rfl | ⟨b, sgn, d, rfl, hb, -⟩ := he
  · exact ⟨ht.noDigit, fun s hs => (ht _ _ hs).2.1 rfl⟩
  · have hall : ∀ b : UInt8, b = 0x65 ∨ b = 0x45 → isDigit b = false ∧ b ≠ 0x2E :=
      forall_byte (by decide +kernel)
    constructor
    · intro c s hs
      rw [← (List.cons.inj hs).1]
      exact (hall b hb).1
    · intro s hs
      exact (hall b hb).2 (List.cons.inj hs).1

theorem fraction_append {f e t : Text} (hf : IsFraction f) (he : IsExponent e) (ht : Stops t) :
    fraction (f ++ (e ++ t)) = some (f, e ++ t) := by
  obtain ⟨hdigit, hpoint⟩ := noDigit_exponent he ht
  obtain rfl | ⟨d, rfl, hne, hd⟩ := hf
  · rw [List.nil_append]
    cases hrest : e ++ t with
    | nil => rfl
    | cons b s =>
      have hb : ¬ b = 0x2E := by
        rintro rfl
        exact hpoint s hrest
      rw [fraction, if_neg hb]
  · rw [List.cons_append, fraction, if_pos rfl, digits_of_noDigit hne hd hdigit, Option.map_some]

theorem noDigit_fraction {f e t : Text} (hf : IsFraction f) (he : IsExponent e) (ht : Stops t) :
    NoDigit (f ++ (e ++ t)) := by
  obtain rfl | ⟨d, rfl, -⟩ := hf
  · exact (noDigit_exponent he ht).1
  · intro b s hs
    rw [← (List.cons.inj hs).1]
    rfl

theorem integerPart_of_noDigit {w t : Text} (hw : Decimal w) (ht : NoDigit t) :
    integerPart (w ++ t) = some (w, t) := by
  have hdigits := digits_of_noDigit hw.ne_nil hw.digits ht
  cases w with
  | nil => exact absurd rfl hw.ne_nil
  | cons b rest =>
    rw [List.cons_append] at hdigits ⊢
    rw [integerPart, hdigits]
    split_ifs with hzero
    -- after a zero the integer is over
    · cases rest with
      | nil => rw [List.nil_append]
      | cons d s => exact (hw.head d s (by rw [hzero])).elim
    · rfl

/-- A number is read up to its end. -/
theorem number_of_isNumber {w t : Text} (hw : IsNumber w) (ht : Stops t) :
    number (w ++ t) = some (w, t) := by
  obtain ⟨i, f, e, hi, hf, he, rfl⟩ := hw
  have hsplit : i ++ (f ++ e) ++ t = i ++ (f ++ (e ++ t)) := by
    simp only [List.append_assoc]
  -- behind the sign the three parts follow each other, and none reads into the next
  have hparts (minus d : Text) (hd : Decimal d) (hminus : minus ++ d = i)
      (hsign : sign (fun b => b = 0x2D) (i ++ (f ++ (e ++ t))) =
        (minus, d ++ (f ++ (e ++ t)))) :
      number (i ++ (f ++ (e ++ t))) = some (i ++ (f ++ e), t) := by
    rw [number, hsign]
    simp only [Option.bind_eq_bind, integerPart_of_noDigit hd (noDigit_fraction hf he ht),
      fraction_append hf he ht, exponent_append he ht, Option.bind_some]
    rw [← hminus, List.append_assoc]
  rw [hsplit]
  obtain hd | ⟨d, rfl, hd⟩ := hi
  · apply hparts [] i hd rfl
    cases i with
    | nil => exact absurd rfl hd.ne_nil
    | cons b rest =>
      have hb : ¬(b = 0x2D) := by
        rintro rfl
        exact absurd (hd.digits 0x2D List.mem_cons_self) (by decide)
      rw [List.cons_append, sign, if_neg (by simpa using hb)]
  · exact hparts [0x2D] d hd rfl rfl

theorem IsNumber.head {w : Text} (h : IsNumber w) :
    ∃ b s, w = b :: s ∧ (isDigit b = true ∨ b = 0x2D) := by
  obtain ⟨i, f, e, hi, -, -, rfl⟩ := h
  obtain ⟨b, s, rfl, hb⟩ := hi.head
  exact ⟨b, s ++ (f ++ e), rfl, hb⟩

variable {d : Dialect}

/-- The values whose strings and numbers a reader takes, with all numbers of the grammar. -/
inductive Writable (d : Dialect) : Value → Prop
  | null : Writable d .null
  | boolean (b : Bool) : Writable d (.boolean b)
  | number {w : Text} (hw : IsNumber w) (htakes : d.takesNumber w = true) : Writable d (.number w)
  | string {s : Text} (htakes : d.takesString s = true) : Writable d (.string s)
  | array {elements : List Value} (helements : ∀ v ∈ elements, Writable d v) :
      Writable d (.array elements)
  | object {members : List (Text × Value)} (hkeys : ∀ m ∈ members, d.takesString m.1 = true)
      (hmembers : ∀ m ∈ members, Writable d m.2) : Writable d (.object members)

theorem lt_of_number_head : ∀ b : UInt8, isDigit b = true ∨ b = 0x2D → b < 0x80 :=
  forall_byte (by decide +kernel)

/-- No text of a value starts with white space or a closing bracket, and every one starts with an
ASCII character. -/
theorem Writable.head {v : Value} (h : Writable d v) (step indent : ℕ) :
    ∃ b s, write step indent v = b :: s ∧ isSpace b = false ∧ b ≠ 0x5D ∧ b < 0x80 := by
  cases h with
  | null => exact ⟨_, _, rfl, rfl, by decide, by decide⟩
  | boolean b =>
    cases b
    · exact ⟨_, _, rfl, rfl, by decide, by decide⟩
    · exact ⟨_, _, rfl, rfl, by decide, by decide⟩
  | number hw _ =>
    obtain ⟨b, s, rfl, hb⟩ := hw.head
    have hne := ne_of_number_head b hb
    exact ⟨b, s, rfl, hne.1, hne.2.1, lt_of_number_head b hb⟩
  | string _ => exact ⟨_, _, rfl, rfl, by decide, by decide⟩
  | array _ =>
    rw [write]
    split_ifs
    · exact ⟨_, _, rfl, rfl, by decide, by decide⟩
    · exact ⟨_, _, rfl, rfl, by decide, by decide⟩
  | object _ _ =>
    rw [write]
    split_ifs
    · exact ⟨_, _, rfl, rfl, by decide, by decide⟩
    · exact ⟨_, _, rfl, rfl, by decide, by decide⟩

theorem value_of_isNumber {w t : Text} (hw : IsNumber w) (htakes : d.takesNumber w = true)
    (ht : Stops t) (depth : ℕ) : value d (depth + 1) (w ++ t) = some (.number w, t) := by
  have hnumber := number_of_isNumber hw ht
  obtain ⟨b, s, rfl, hb⟩ := hw.head
  obtain ⟨hspace, -, hquote, hbracket, hbrace, hnull, htrue, hfalse⟩ := ne_of_number_head b hb
  have hliteral {c : UInt8} (hc : b ≠ c) (l : Text) :
      (c :: l).isPrefixOf (b :: s ++ t) = false := by
    rw [List.cons_append, List.isPrefixOf, beq_false_of_ne hc.symm, Bool.false_and]
  have hscalar : scalar d (b :: s ++ t) = some (.number (b :: s), t) := by
    rw [scalar, nullText, trueText, falseText, hliteral hnull, hliteral htrue, hliteral hfalse,
      hnumber]
    simp only [Bool.false_eq_true, ↓reduceIte, Option.bind_eq_bind, Option.bind_some, htakes]
  rw [List.cons_append] at hscalar ⊢
  rw [value, skip_cons hspace]
  simp only [hquote, hbracket, hbrace, ↓reduceIte, hscalar]

/-- A list is closed by its bracket, whatever comes after it. -/
theorem value_elements {step indent depth : ℕ} {elements : List Value}
    (ih : ∀ v ∈ elements, ReadsBack Ends (value d depth) (write step (indent + step)) v)
    (hwritable : ∀ v ∈ elements, Writable d v) (t : Text) :
    value d (depth + 1) (write step indent (.array elements) ++ t) = some (.array elements, t) := by
  by_cases hempty : elements = []
  · rw [hempty]
    rfl
  have hitems : items (value d depth) 0x5D
      (joined (fun v => line (indent + step) ++ write step (indent + step) v) elements ++
        (line indent ++ 0x5D :: t)) = some (elements, t) := by
    apply items_line hempty
    · intro v hv s hs
      rw [List.append_assoc, value_blank (blank_line _)]
      exact ih v hv s hs
    · rfl
    · decide
    · intro v hv s
      obtain ⟨b, w, hw, hspace, hne, -⟩ := (hwritable v hv).head step (indent + step)
      exact symbol_line hw hspace hne s
  rw [write_array hempty, List.cons_append, List.append_assoc, List.append_assoc,
    List.singleton_append, value, skip_cons rfl]
  have hquote : ¬((0x5B : UInt8) = quote) := by decide
  simp only [hquote, ↓reduceIte, hitems, Option.map_some]

theorem value_members {step indent depth : ℕ} {members : List (Text × Value)}
    (hkeys : ∀ m ∈ members, d.takesString m.1 = true)
    (ih : ∀ m ∈ members, ReadsBack Ends (value d depth) (write step (indent + step)) m.2)
    (t : Text) :
    value d (depth + 1) (write step indent (.object members) ++ t) =
      some (.object members, t) := by
  by_cases hempty : members = []
  · rw [hempty]
    rfl
  have hitems : items (member d (value d depth)) 0x7D
      (joined (writeMember step (indent + step)) members ++ (line indent ++ 0x7D :: t)) =
        some (members, t) := by
    apply items_line hempty
    · intro m hm
      exact member_write (hkeys m hm) (ih m hm)
    · rfl
    · decide
    · intro m _ s
      rw [writeMember]
      exact symbol_line rfl rfl (by decide) s
  rw [write_object hempty, List.cons_append, List.append_assoc, List.append_assoc,
    List.singleton_append, value, skip_cons rfl]
  have hquote : ¬((0x7B : UInt8) = quote) := by decide
  have hbracket : ¬((0x7B : UInt8) = 0x5B) := by decide
  simp only [hquote, hbracket, ↓reduceIte, hitems, Option.map_some]

/-- Every writable value is read back from its writing. The induction is on the value; the bound on
the nesting is the length of the text, and every nested value has a shorter one. -/
theorem value_of_writable {v : Value} (h : Writable d v) (step : ℕ) : ∀ indent depth,
    (write step indent v).length ≤ depth → ∀ t, Stops t →
      value d depth (write step indent v ++ t) = some (v, t) := by
  have hdepth {v : Value} (hv : Writable d v) {indent depth : ℕ}
      (hle : (write step indent v).length ≤ depth) : ∃ k, depth = k + 1 := by
    obtain ⟨b, s, hw, -⟩ := hv.head step indent
    rw [hw, List.length_cons] at hle
    exact ⟨depth - 1, by omega⟩
  induction h with
  | null =>
    intro indent depth hle t _
    obtain ⟨k, rfl⟩ := hdepth .null hle
    exact (value_literal t k).1
  | boolean b =>
    intro indent depth hle t _
    obtain ⟨k, rfl⟩ := hdepth (.boolean b) hle
    exact (value_literal t k).2 b
  | number hw htakes =>
    intro indent depth hle t ht
    obtain ⟨k, rfl⟩ := hdepth (.number hw htakes) hle
    exact value_of_isNumber hw htakes ht k
  | string htakes =>
    intro indent depth hle t _
    obtain ⟨k, rfl⟩ := hdepth (.string htakes) hle
    rw [write, List.cons_append, List.append_assoc, List.singleton_append]
    exact value_string htakes k t
  | @array elements helements ih =>
    intro indent depth hle t _
    obtain ⟨k, rfl⟩ := hdepth (.array helements) hle
    refine value_elements (fun v hv s hs => ?_) helements t
    refine ih v hv (indent + step) k ?_ s (stops_of_ends hs)
    have hmem := length_le_of_mem_joined
      (fun v => line (indent + step) ++ write step (indent + step) v) hv
    rw [write_array (List.ne_nil_of_mem hv), List.length_cons, List.length_append] at hle
    rw [List.length_append] at hmem
    omega
  | @object members hkeys hmembers ih =>
    intro indent depth hle t _
    obtain ⟨k, rfl⟩ := hdepth (.object hkeys hmembers) hle
    refine value_members hkeys (fun m hm s hs => ?_) t
    refine ih m hm (indent + step) k ?_ s (stops_of_ends hs)
    have hmem := length_le_of_mem_joined (writeMember step (indent + step)) hm
    rw [write_object (List.ne_nil_of_mem hm), List.length_cons, List.length_append] at hle
    rw [writeMember] at hmem
    simp only [List.length_append, List.length_cons] at hmem
    omega

/-- The round trip of a text that ends with the value. -/
theorem read_of_writable {v : Value} (h : Writable d v) (step indent : ℕ) :
    read d (write step indent v) = some (v, []) := by
  have hstops : Stops [] := fun b s hs => by cases hs
  have hvalue := value_of_writable h step indent _ (Nat.le_refl _) [] hstops
  rwa [List.append_nil] at hvalue

end JsonText
