import Mathlib.Algebra.Order.Field.Rat
import Mathlib.Data.List.Infix
import Mathlib.Data.List.TakeWhile
import Mathlib.Tactic.Common

/-! `search_star_coordinates`, which looks up an object of the NGC, IC or Messier catalogue in a
table. -/
namespace OpenAPT.StarSearch

/-- A `str` of Python. -/
abbrev Text := List Char

/-- A number in the table, taken as exact. `none` is the NaN that an empty cell is read as. -/
abbrev Number := Option ℚ

inductive Cell
  | text (s : Text)
  | number (x : Number)
  deriving DecidableEq

/-- The columns that are used; `designation` is the one called `编号`. -/
structure StarRow where
  designation : Cell
  RH : Cell
  RM : Cell
  RS : Cell
  V : Cell
  DG : Cell
  DM : Cell
  DS : Cell
  deriving DecidableEq

/-- The tuple that is returned. -/
structure Coordinates where
  ra_h : Cell
  ra_m : Cell
  ra_s : Cell
  dec_g : Text
  dec_d : Cell
  dec_m : Cell
  dec_s : Cell
  RA_deg : Number
  DEC_deg : Number
  deriving DecidableEq

/-- What is raised: the mask has NaNs, a text is an operand, or `float` does not read a text. -/
inductive Raised
  | mask
  | operand
  | conversion
  deriving DecidableEq

/-- The decimal digits 0 of Unicode 14; the nine characters after each are the other digits. -/
def decimalZeros : List ℕ :=
  [0x30, 0x660, 0x6F0, 0x7C0, 0x966, 0x9E6, 0xA66, 0xAE6, 0xB66, 0xBE6, 0xC66, 0xCE6, 0xD66, 0xDE6,
    0xE50, 0xED0, 0xF20, 0x1040, 0x1090, 0x17E0, 0x1810, 0x1946, 0x19D0, 0x1A80, 0x1A90, 0x1B50,
    0x1BB0, 0x1C40, 0x1C50, 0xA620, 0xA8D0, 0xA900, 0xA9D0, 0xA9F0, 0xAA50, 0xABF0, 0xFF10, 0x104A0,
    0x10D30, 0x11066, 0x110F0, 0x11136, 0x111D0, 0x112F0, 0x11450, 0x114D0, 0x11650, 0x116C0,
    0x11730, 0x118E0, 0x11950, 0x11C50, 0x11D50, 0x11DA0, 0x16A60, 0x16AC0, 0x16B50, 0x1D7CE,
    0x1D7D8, 0x1D7E2, 0x1D7EC, 0x1D7F6, 0x1E140, 0x1E2F0, 0x1E950, 0x1FBF0]

/-- What `\d` matches. -/
def isDecimal (c : Char) : Bool :=
  decimalZeros.any fun z => z ≤ c.toNat && c.toNat < z + 10

/-- What `[a-zA-Z]` matches. -/
def isLetter (c : Char) : Bool := c.isAlpha

/-- `re.match(r'([a-zA-Z]+)(\d+)', star_code)` with its two groups. A letter is not a digit, so no
shorter first group can match. -/
def reMatch (star_code : Text) : Option (Text × Text) :=
  let group1 := star_code.takeWhile isLetter
  let group2 := (star_code.dropWhile isLetter).takeWhile isDecimal
  if group1 = [] ∨ group2 = [] then none else some (group1, group2)

def lower (s : Text) : Text := s.map Char.toLower

def upper (s : Text) : Text := s.map Char.toUpper

/-- The prefixes that are looked up, all in the same column. -/
def accepted (group1 : Text) : Bool :=
  lower group1 = "ngc".toList || lower group1 = "ic".toList || lower group1 = "m".toList

/-- `str.contains` on a cell. The pattern is only letters and digits, and what is no text gives
NaN. -/
def strContains (pattern : Text) : Cell → Option Bool
  | .text s => some (pattern <:+: s)
  | .number _ => none

/-- `df.loc[mask]`. -/
def loc (df : List StarRow) (mask : StarRow → Option Bool) : Except Raised (List StarRow) :=
  if df.all fun row => (mask row).isSome then .ok (df.filter fun row => mask row = some true)
  else .error .mask

/-- The row the coordinates are taken from, `none` where the function returns `None`. -/
def findRow (df : List StarRow) (star_code : Text) : Except Raised (Option StarRow) :=
  match reMatch star_code with
  | none => .ok none
  | some (group1, number) =>
    if accepted group1 then
      match loc df fun row => strContains (upper group1 ++ number) row.designation with
      | .error e => .error e
      | .ok result => .ok result.head?
    else .ok none

section

variable (parseFloat : Text → Option Number)

/-- `float` of a cell. -/
def float : Cell → Except Raised Number
  | .number x => .ok x
  | .text s =>
    match parseFloat s with
    | some x => .ok x
    | none => .error .conversion

/-- A cell as an operand of the arithmetic. -/
def operand : Cell → Except Raised Number
  | .number x => .ok x
  | .text _ => .error .operand

def coordinates (row : StarRow) : Except Raised Coordinates := do
  let dec_g : Text := if row.V = .text "+".toList then "1".toList else "-1".toList
  let sign : ℚ := if row.V = .text "+".toList then 1 else -1
  let ra_h ← operand row.RH
  let ra_m ← operand row.RM
  let ra_s ← operand row.RS
  let RA_deg : Number := do pure ((← ra_h) * 15 + (← ra_m) * (1 / 4) + (← ra_s) * (1 / 4 / 60))
  let dec_d ← float parseFloat row.DG
  let dec_m ← float parseFloat row.DM
  let dec_s ← float parseFloat row.DS
  let DEC_deg : Number := do pure (sign * ((← dec_d) + (← dec_m) / 60 + (← dec_s) / 3600))
  pure ⟨row.RH, row.RM, row.RS, dec_g, row.DG, row.DM, row.DS, RA_deg, DEC_deg⟩

def searchStarCoordinates (df : List StarRow) (star_code : Text) :
    Except Raised (Option Coordinates) :=
  match findRow df star_code with
  | .error e => .error e
  | .ok none => .ok none
  | .ok (some row) => (coordinates parseFloat row).map some

/-- The designation of an object: its prefix in capitals and its number. -/
def name (group1 number : Text) : Text := upper group1 ++ number

/-- Coordinates are those of the row with the designation, and `None` means that there is no such
row. -/
structure FindsNamed (df : List StarRow) (group1 number : Text) : Prop where
  of_some : ∀ r, searchStarCoordinates parseFloat df (group1 ++ number) = .ok (some r) →
    ∃ row ∈ df, findRow df (group1 ++ number) = .ok (some row) ∧
      coordinates parseFloat row = .ok r ∧ row.designation = .text (name group1 number)
  of_none : searchStarCoordinates parseFloat df (group1 ++ number) = .ok none →
    ∀ row ∈ df, row.designation ≠ .text (name group1 number)

/-- The cells with the coordinates are numbers, or texts for the declination that are read as
numbers. -/
structure Convertible (row : StarRow) : Prop where
  right_ascension : ∀ cell ∈ [row.RH, row.RM, row.RS], ∃ x, cell = .number x
  declination : ∀ cell ∈ [row.DG, row.DM, row.DS],
    (∃ x, cell = .number x) ∨ ∃ s, cell = .text s ∧ parseFloat s ≠ none

end

/-- The designation is a text in which `s` occurs. -/
def Contains (s : Text) (row : StarRow) : Prop := ∃ t, row.designation = .text t ∧ s <:+: t

instance (s : Text) : DecidablePred (Contains s) := fun row =>
  match hrow : row.designation with
  | .text t => decidable_of_iff (s <:+: t) (by simp only [Contains, hrow, Cell.text.injEq,
      exists_eq_left'])
  | .number x => .isFalse (by simp only [Contains, hrow, reduceCtorEq, false_and, exists_false,
      not_false_eq_true])

variable {df : List StarRow} {group1 number : Text}

/-! ### Codes -/

theorem isLetter_iff (c : Char) : isLetter c = true ↔
    65 ≤ c.toNat ∧ c.toNat ≤ 90 ∨ 97 ≤ c.toNat ∧ c.toNat ≤ 122 := by
  have hbounds : isLetter c = (decide (c.val ≥ 'A'.val ∧ c.val ≤ 'Z'.val) ||
      (decide (c.val ≥ 'a'.val) && decide (c.val ≤ 'z'.val))) := rfl
  simp only [hbounds, Bool.or_eq_true, Bool.and_eq_true, decide_eq_true_eq, ge_iff_le,
    UInt32.le_iff_toNat_le]
  rfl

theorem isLetter_of_toLower {c : Char} (h : isLetter c.toLower = true) : isLetter c = true := by
  by_cases hupper : c.val ≥ 'A'.val ∧ c.val ≤ 'Z'.val
  · have hisUpper : c.isUpper = true := decide_eq_true hupper
    exact Bool.or_eq_true_iff.mpr (Or.inl hisUpper)
  · have hsame : c.toLower = c := dif_neg hupper
    rwa [hsame] at h

theorem isLetter_eq_false_of_isDecimal {c : Char} (h : isDecimal c = true) :
    isLetter c = false := by
  -- the letters are between the digits of ASCII and all the others
  have hrange : ∀ z ∈ decimalZeros, z + 10 ≤ 65 ∨ 123 ≤ z := by decide
  obtain ⟨z, hz, hc⟩ := List.any_eq_true.mp h
  rw [Bool.and_eq_true, decide_eq_true_eq, decide_eq_true_eq] at hc
  rw [Bool.eq_false_iff, ne_eq, isLetter_iff]
  rcases hrange z hz with hbelow | habove <;> omega

theorem forall_isLetter_of_accepted (h : accepted group1 = true) :
    group1 ≠ [] ∧ ∀ c ∈ group1, isLetter c = true := by
  have hlower : lower group1 = "ngc".toList ∨ lower group1 = "ic".toList ∨
      lower group1 = "m".toList := by
    simpa only [accepted, Bool.or_eq_true, decide_eq_true_eq, or_assoc] using h
  have hletters : lower group1 ≠ [] ∧ (lower group1).all isLetter = true := by
    rcases hlower with heq | heq | heq <;> rw [heq] <;> decide
  constructor
  · exact fun hnil => hletters.1 (by rw [hnil]; rfl)
  · intro c hc
    exact isLetter_of_toLower (List.all_eq_true.mp hletters.2 _ (List.mem_map_of_mem hc))

/-- A code of an accepted prefix and digits is taken apart into them. -/
theorem reMatch_append (haccepted : accepted group1 = true) (hnumber : number ≠ [])
    (hdigits : ∀ c ∈ number, isDecimal c = true) :
    reMatch (group1 ++ number) = some (group1, number) := by
  obtain ⟨hne, hletters⟩ := forall_isLetter_of_accepted haccepted
  obtain ⟨d, ds, rfl⟩ := List.exists_cons_of_ne_nil hnumber
  have hd : ¬ isLetter d = true := by
    rw [isLetter_eq_false_of_isDecimal (hdigits d List.mem_cons_self)]
    exact Bool.false_ne_true
  have htake : (group1 ++ d :: ds).takeWhile isLetter = group1 := by
    rw [List.takeWhile_append_of_pos hletters, List.takeWhile_cons_of_neg hd, List.append_nil]
  have hdrop : (group1 ++ d :: ds).dropWhile isLetter = d :: ds := by
    rw [List.dropWhile_append_of_pos hletters, List.dropWhile_cons_of_neg hd]
  have hall : (d :: ds).takeWhile isDecimal = d :: ds := List.takeWhile_eq_self_iff.mpr hdigits
  rw [reMatch, htake, hdrop, hall]
  exact if_neg (not_or.mpr ⟨hne, hnumber⟩)

/-! ### Rows -/

theorem strContains_eq_true_iff (s : Text) (row : StarRow) :
    strContains s row.designation = some true ↔ Contains s row := by
  rw [Contains]
  cases row.designation with
  | text t => simp only [strContains, Option.some.injEq, decide_eq_true_eq, Cell.text.injEq,
      exists_eq_left']
  | number x => simp only [strContains, reduceCtorEq, false_and, exists_false]

theorem strContains_isSome_iff (s : Text) (row : StarRow) :
    (strContains s row.designation).isSome = true ↔ ∃ t, row.designation = .text t := by
  cases row.designation with
  | text t => exact iff_of_true rfl ⟨t, rfl⟩
  | number x => exact iff_of_false Bool.false_ne_true fun ⟨t, ht⟩ => Cell.noConfusion ht

theorem findRow_append (haccepted : accepted group1 = true) (hnumber : number ≠ [])
    (hdigits : ∀ c ∈ number, isDecimal c = true) (df : List StarRow) :
    findRow df (group1 ++ number) =
      (loc df fun row => strContains (name group1 number) row.designation).map List.head? := by
  rw [findRow, reMatch_append haccepted hnumber hdigits]
  simp only [haccepted, ↓reduceIte]
  rw [← name]
  cases loc df fun row => strContains (name group1 number) row.designation <;> rfl

/-- The first row that contains the text is taken from the mask. -/
theorem loc_of_text (s : Text) (htext : ∀ row ∈ df, ∃ t, row.designation = .text t) :
    (loc df fun row => strContains s row.designation).map List.head? =
      .ok (df.find? fun row => Contains s row) := by
  have hall : (df.all fun row => (strContains s row.designation).isSome) = true := by
    rw [List.all_eq_true]
    exact fun row hrow => (strContains_isSome_iff s row).mpr (htext row hrow)
  rw [loc, if_pos hall]
  simp only [Except.map, List.head?_filter, strContains_eq_true_iff]

theorem loc_of_not_text (s : Text) {row : StarRow} (hrow : row ∈ df)
    (htext : ∀ t, row.designation ≠ .text t) :
    (loc df fun row => strContains s row.designation) = .error .mask := by
  apply if_neg
  intro hall
  obtain ⟨t, ht⟩ := (strContains_isSome_iff s row).mp (List.all_eq_true.mp hall row hrow)
  exact htext t ht

/-! ### Coordinates -/

variable {parseFloat : Text → Option Number}

theorem exists_operand_iff (cell : Cell) :
    (∃ x, operand cell = .ok x) ↔ ∃ x, cell = .number x := by
  cases cell with
  | text s =>
    constructor
    · intro ⟨x, hx⟩
      cases hx
    · intro ⟨x, hx⟩
      cases hx
  | number x => exact iff_of_true ⟨x, rfl⟩ ⟨x, rfl⟩

theorem exists_float_iff (cell : Cell) : (∃ x, float parseFloat cell = .ok x) ↔
    (∃ x, cell = .number x) ∨ ∃ s, cell = .text s ∧ parseFloat s ≠ none := by
  cases cell with
  | text s =>
    rw [float]
    cases hs : parseFloat s with
    | none => simp [hs]
    | some x => simp [hs]
  | number x => exact iff_of_true ⟨x, rfl⟩ (Or.inl ⟨x, rfl⟩)

theorem exists_bind_eq_ok_iff {α β : Type} {x : Except Raised α} {f : α → Except Raised β} :
    (∃ r, x >>= f = .ok r) ↔ ∃ a, x = .ok a ∧ ∃ r, f a = .ok r := by
  cases x with
  | error e =>
    constructor
    · intro ⟨r, hr⟩
      cases hr
    · intro ⟨a, ha, _⟩
      cases ha
  | ok a => exact ⟨fun h => ⟨a, rfl, h⟩, fun ⟨b, hb, h⟩ => Except.ok.inj hb ▸ h⟩

/-- The coordinates of a row are computed exactly if all its cells can be converted. -/
theorem exists_coordinates_iff (row : StarRow) :
    (∃ r, coordinates parseFloat row = .ok r) ↔ Convertible parseFloat row := by
  have hok {r : Coordinates} : ∃ r', (pure r : Except Raised Coordinates) = .ok r' := ⟨r, rfl⟩
  simp only [coordinates, exists_bind_eq_ok_iff, hok, and_true]
  simp only [exists_and_right, exists_operand_iff, exists_float_iff]
  constructor
  · intro ⟨hh, hm, hs, hg, hdm, hds⟩
    constructor
    · exact List.forall_mem_cons.mpr ⟨hh, List.forall_mem_cons.mpr ⟨hm,
        List.forall_mem_singleton.mpr hs⟩⟩
    · exact List.forall_mem_cons.mpr ⟨hg, List.forall_mem_cons.mpr ⟨hdm,
        List.forall_mem_singleton.mpr hds⟩⟩
  · intro ⟨hra, hdec⟩
    simpa only [List.forall_mem_cons, List.not_mem_nil, false_imp_iff, implies_true, and_true,
      and_assoc] using And.intro hra hdec

/-! ### The object that is found -/

/-- The name occurs in its own row, so that a table in which it occurs nowhere has no such row. -/
theorem contains_of_designation {s : Text} {row : StarRow} (h : row.designation = .text s) :
    Contains s row :=
  ⟨s, h, List.infix_rfl⟩

theorem findsNamed_of_error {e : Raised}
    (h : findRow df (group1 ++ number) = .error e) : FindsNamed parseFloat df group1 number := by
  have hraise : searchStarCoordinates parseFloat df (group1 ++ number) = .error e := by
    rw [searchStarCoordinates, h]
  constructor
  · intro r hr
    cases hraise.symm.trans hr
  · intro hnone
    cases hraise.symm.trans hnone

theorem findsNamed_of_none (h : findRow df (group1 ++ number) = .ok none)
    (hnone : ∀ row ∈ df, row.designation ≠ .text (name group1 number)) :
    FindsNamed parseFloat df group1 number := by
  refine ⟨fun r hr => ?_, fun _ => hnone⟩
  rw [searchStarCoordinates, h] at hr
  cases hr

/-- A row that is found decides, except where its cells cannot be converted. -/
theorem findsNamed_iff_of_some {row : StarRow} (h : findRow df (group1 ++ number) = .ok (some row))
    (hmem : row ∈ df) : FindsNamed parseFloat df group1 number ↔
      row.designation = .text (name group1 number) ∨ ¬ Convertible parseFloat row := by
  have hsearch : searchStarCoordinates parseFloat df (group1 ++ number) =
      (coordinates parseFloat row).map some := by
    rw [searchStarCoordinates, h]
  cases hcoordinates : coordinates parseFloat row with
  | error e =>
    have hnot : ¬ Convertible parseFloat row := by
      rw [← exists_coordinates_iff, hcoordinates]
      intro ⟨r, hr⟩
      cases hr
    rw [hcoordinates] at hsearch
    refine iff_of_true ⟨fun r hr => ?_, fun hnone => ?_⟩ (Or.inr hnot)
    · cases hsearch.symm.trans hr
    · cases hsearch.symm.trans hnone
  | ok r =>
    have hconvertible : Convertible parseFloat row :=
      (exists_coordinates_iff row).mp ⟨r, hcoordinates⟩
    rw [hcoordinates] at hsearch
    rw [or_iff_left (not_not.mpr hconvertible)]
    constructor
    · intro hfinds
      obtain ⟨row', _, hrow', _, hname⟩ := hfinds.of_some r hsearch
      obtain rfl := Option.some.inj (Except.ok.inj (h.symm.trans hrow'))
      exact hname
    · intro hname
      refine ⟨fun r' hr' => ?_, fun hnone => ?_⟩
      · obtain rfl := Option.some.inj (Except.ok.inj (hsearch.symm.trans hr'))
        exact ⟨row, hmem, h, hcoordinates, hname⟩
      · cases hsearch.symm.trans hnone

/-- The named object is found exactly if the first designation in which the name occurs is the name,
apart from the calls that raise. -/
theorem findsNamed_iff (parseFloat : Text → Option Number) (df : List StarRow)
    (haccepted : accepted group1 = true) (hnumber : number ≠ [])
    (hdigits : ∀ c ∈ number, isDecimal c = true) :
    FindsNamed parseFloat df group1 number ↔
      (∃ row ∈ df, ∀ t, row.designation ≠ .text t) ∨
        ∀ row, df.find? (fun row => Contains (name group1 number) row) = some row →
          row.designation = .text (name group1 number) ∨ ¬ Convertible parseFloat row := by
  have hfind := findRow_append haccepted hnumber hdigits df
  by_cases htext : ∃ row ∈ df, ∀ t, row.designation ≠ .text t
  · -- the mask has a NaN, and the call raises
    obtain ⟨row, hrow, hnot⟩ := htext
    rw [loc_of_not_text _ hrow hnot] at hfind
    exact iff_of_true (findsNamed_of_error hfind) (Or.inl ⟨row, hrow, hnot⟩)
  · have hall : ∀ row ∈ df, ∃ t, row.designation = .text t := by
      simpa only [not_exists, not_and, not_forall, ne_eq, not_not] using htext
    rw [loc_of_text _ hall] at hfind
    rw [or_iff_right htext]
    cases hrow : df.find? fun row => Contains (name group1 number) row with
    | none =>
      -- no row is selected, so there is none with the name either
      rw [hrow] at hfind
      have hnone : ∀ row ∈ df, row.designation ≠ .text (name group1 number) := by
        intro row hmem hname
        apply List.find?_eq_none.mp hrow row hmem
        exact decide_eq_true (contains_of_designation hname)
      refine iff_of_true (findsNamed_of_none hfind hnone) fun row hsome => ?_
      cases hsome
    | some row =>
      -- the first row that is selected decides
      rw [hrow] at hfind
      rw [findsNamed_iff_of_some hfind (List.mem_of_find?_eq_some hrow)]
      simp only [Option.some.injEq, forall_eq']

/-- A row with the right ascension in hours. -/
def rowAt (designation : Text) (hours : ℚ) : StarRow where
  designation := .text designation
  RH := .number (some hours)
  RM := .number (some 0)
  RS := .number (some 0)
  V := .text "+".toList
  DG := .number (some 0)
  DM := .number (some 0)
  DS := .number (some 0)

/-- `float` of a text, for a table without numbers that are texts. -/
def noFloat (_ : Text) : Option Number := none

theorem findsNamed_iff_alone :
    FindsNamed noFloat [rowAt "NGC1".toList 1] "ngc".toList "1".toList ↔
      (∃ row ∈ [rowAt "NGC1".toList 1], ∀ t, row.designation ≠ .text t) ∨
        ∀ row, [rowAt "NGC1".toList 1].find?
            (fun row => Contains (name "ngc".toList "1".toList) row) = some row →
          row.designation = .text (name "ngc".toList "1".toList) ∨ ¬ Convertible noFloat row :=
  findsNamed_iff noFloat [rowAt "NGC1".toList 1] (by decide) (by decide)
    (List.all_eq_true.mp (by decide : "1".toList.all isDecimal = true))

/-- Looking for NGC 1 in a table that has NGC 10 before it gives the coordinates of NGC 10. -/
theorem not_findsNamed_longer :
    (searchStarCoordinates noFloat [rowAt "NGC10".toList 10, rowAt "NGC1".toList 1]
      "NGC1".toList).map (Option.map Coordinates.ra_h) =
        .ok (some (.number (some 10))) ∧
      ¬ ∀ (parseFloat : Text → Option Number) (df : List StarRow) (group1 number : Text),
        accepted group1 = true → number ≠ [] → (∀ c ∈ number, isDecimal c = true) →
          FindsNamed parseFloat df group1 number := by
  have hrow : findRow [rowAt "NGC10".toList 10, rowAt "NGC1".toList 1]
      ("NGC".toList ++ "1".toList) = .ok (some (rowAt "NGC10".toList 10)) := by
    decide +kernel
  have hsearch : searchStarCoordinates noFloat [rowAt "NGC10".toList 10, rowAt "NGC1".toList 1]
      ("NGC".toList ++ "1".toList) = (coordinates noFloat (rowAt "NGC10".toList 10)).map some := by
    rw [searchStarCoordinates, hrow]
  have hcode : "NGC1".toList = "NGC".toList ++ "1".toList := by decide
  refine ⟨?_, fun hall => ?_⟩
  · have hresult := hsearch
    rw [← hcode] at hresult
    rw [hresult]
    rfl
  · have hfinds := hall noFloat [rowAt "NGC10".toList 10, rowAt "NGC1".toList 1] "NGC".toList
      "1".toList (by decide) (by decide)
      (List.all_eq_true.mp (by decide : "1".toList.all isDecimal = true))
    obtain ⟨row, _, hrow', _, hname⟩ := hfinds.of_some _ hsearch
    obtain rfl := Option.some.inj (Except.ok.inj (hrow.symm.trans hrow'))
    exact absurd hname (by decide)

end OpenAPT.StarSearch
