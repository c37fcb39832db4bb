import Mathlib.Data.List.Basic
import Mathlib.Data.List.Perm.Subperm
import Mathlib.Tactic.Common

/-! Readers of byte texts: each takes a value off the front of a text or fails. Two rules are stated
of every reader here, what it reads back from a written text and how short a text can be for what
is read. -/
namespace Readers

abbrev Text := List UInt8

/-- What is read and the rest of the text. -/
abbrev Reader (α : Type) := Text → Option (α × Text)

variable {α : Type}

/-- A property of bytes is checked on all of them. -/
theorem forall_byte {P : UInt8 → Prop} (h : ∀ n : Fin 256, P (UInt8.ofFin n)) (b : UInt8) : P b :=
  h b.toFin

def comma : UInt8 := 0x2C

def isSpace (b : UInt8) : Bool := b = 0x20 || b = 0x09 || b = 0x0A || b = 0x0D

def skip (s : Text) : Text := s.dropWhile isSpace

/-- A text whose bytes are all white space. -/
def Blank (s : Text) : Prop := ∀ b ∈ s, isSpace b = true

theorem skip_append {w : Text} (h : Blank w) (s : Text) : skip (w ++ s) = skip s :=
  List.dropWhile_append_of_pos h

theorem skip_cons {b : UInt8} (h : isSpace b = false) (s : Text) : skip (b :: s) = b :: s :=
  List.dropWhile_cons_of_neg (by rw [h]; exact Bool.false_ne_true)

theorem length_skip_le (s : Text) : (skip s).length ≤ s.length :=
  (List.dropWhile_suffix isSpace).length_le

/-- A byte that the next token has to be. -/
def symbol (b : UInt8) (s : Text) : Option Text :=
  match skip s with
  | c :: s => if c = b then some s else none
  | [] => none

theorem symbol_append {w : Text} (hw : Blank w) {b : UInt8} (hb : isSpace b = false) (s : Text) :
    symbol b (w ++ b :: s) = some s := by
  rw [symbol, skip_append hw, skip_cons hb]
  simp only [↓reduceIte]

theorem length_of_symbol {b : UInt8} {s t : Text} (h : symbol b s = some t) :
    t.length + 1 ≤ s.length := by
  have hskip := length_skip_le s
  rw [symbol] at h
  split at h
  · rename_i c rest hrest
    rw [hrest, List.length_cons] at hskip
    split_ifs at h
    obtain rfl := Option.some.inj h
    exact hskip
  · cases h

/-- Items between commas, up to and with the closing byte. The number bounds the items. -/
def sequence (item : Reader α) (close : UInt8) : ℕ → Reader (List α)
  | 0, _ => none
  | n + 1, s => do
    let (a, s) ← item s
    match symbol comma s with
    | some s =>
      let (as, s) ← sequence item close n s
      some (a :: as, s)
    | none =>
      let s ← symbol close s
      some ([a], s)

/-- A list of items after its opening byte. -/
def items (item : Reader α) (close : UInt8) : Reader (List α) := fun s =>
  match symbol close s with
  | some s => some ([], s)
  | none => sequence item close s.length s

/-- The texts of a list with commas between them. -/
def joined (write : α → Text) : List α → Text
  | [] => []
  | [a] => write a
  | a :: b :: as => write a ++ comma :: joined write (b :: as)

def isDigit (b : UInt8) : Bool := 0x30 ≤ b && b ≤ 0x39

def hexDigit? (b : UInt8) : Option ℕ :=
  if 0x30 ≤ b ∧ b ≤ 0x39 then some (b.toNat - 0x30)
  else if 0x41 ≤ b ∧ b ≤ 0x46 then some (b.toNat - 0x37)
  else if 0x61 ≤ b ∧ b ≤ 0x66 then some (b.toNat - 0x57)
  else none

/-- The UTF-8 of a code point. -/
def encode (codepoint : ℕ) : Text :=
  let tail (n : ℕ) : UInt8 := UInt8.ofNat (0x80 + n % 0x40)
  if codepoint < 0x80 then [UInt8.ofNat codepoint]
  else if codepoint < 0x800 then [UInt8.ofNat (0xC0 + codepoint / 0x40 % 0x20), tail codepoint]
  else if codepoint < 0x10000 then
    [UInt8.ofNat (0xE0 + codepoint / 0x1000 % 0x10), tail (codepoint / 0x40), tail codepoint]
  else
    [UInt8.ofNat (0xF0 + codepoint / 0x40000 % 8), tail (codepoint / 0x1000),
      tail (codepoint / 0x40), tail codepoint]

/-- An encoding is one byte, or at most four that are not ASCII. -/
theorem encode_cases (codepoint : ℕ) : (∃ b, encode codepoint = [b]) ∨
    (∀ b ∈ encode codepoint, 0x80 ≤ b) ∧ (encode codepoint).length ≤ 4 := by
  have hhigh (m n : ℕ) (h : 0x80 ≤ m ∧ m + n < 0x100) : 0x80 ≤ UInt8.ofNat (m + n) := by
    rw [UInt8.le_iff_toNat_le, UInt8.toNat_ofNat', Nat.mod_eq_of_lt h.2]
    exact Nat.le_trans h.1 (Nat.le_add_right m n)
  have htail (n : ℕ) : 0x80 ≤ UInt8.ofNat (0x80 + n % 0x40) := hhigh _ _ (by omega)
  rw [encode]
  split_ifs
  · exact Or.inl ⟨_, rfl⟩
  · refine Or.inr ⟨?_, Nat.le_add_right 2 2⟩
    simp only [List.forall_mem_cons, htail, List.not_mem_nil, false_imp_iff, implies_true, and_true]
    exact hhigh _ _ (by omega)
  · refine Or.inr ⟨?_, Nat.le_add_right 3 1⟩
    simp only [List.forall_mem_cons, htail, List.not_mem_nil, false_imp_iff, implies_true, and_true]
    exact hhigh _ _ (by omega)
  · refine Or.inr ⟨?_, Nat.le_refl 4⟩
    simp only [List.forall_mem_cons, htail, List.not_mem_nil, false_imp_iff, implies_true, and_true]
    exact hhigh _ _ (by omega)

/-- What is read takes at least its size of text. -/
def Bounded (size : α → ℕ) (reader : Reader α) : Prop :=
  ∀ s a t, reader s = some (a, t) → size a + t.length ≤ s.length

/-- The size of a list with one byte after each item. -/
def total (size : α → ℕ) : List α → ℕ
  | [] => 0
  | a :: as => size a + 1 + total size as

@[simp] theorem total_nil (size : α → ℕ) : total size [] = 0 := rfl

@[simp] theorem total_cons (size : α → ℕ) (a : α) (as : List α) :
    total size (a :: as) = size a + 1 + total size as := rfl

/-- A sum over a list, whatever it is defined by. -/
def IsSum (sum : List α → ℕ) (size : α → ℕ) : Prop := ∀ a as, sum (a :: as) = size a + sum as

theorem IsSum.eq_of_perm {sum : List α → ℕ} {size : α → ℕ} (h : IsSum sum size) {as bs : List α}
    (hperm : as.Perm bs) : sum as = sum bs := by
  induction hperm with
  | nil => rfl
  | cons a _ ih => rw [h, h, ih]
  | swap a b as =>
    rw [h, h, h, h]
    omega
  | trans _ _ ih₁ ih₂ => exact ih₁.trans ih₂

theorem IsSum.le_of_sublist {sum : List α → ℕ} {size : α → ℕ} (h : IsSum sum size) {as bs : List α}
    (hsublist : as.Sublist bs) : sum as ≤ sum bs := by
  induction hsublist with
  | slnil => exact Nat.le_refl _
  | cons b _ ih =>
    rw [h]
    omega
  | cons_cons a _ ih =>
    rw [h, h]
    omega

/-- Different items of a list take no more than the list. -/
theorem IsSum.le_of_nodup {sum : List α → ℕ} {size : α → ℕ} (h : IsSum sum size) {as bs : List α}
    (hnodup : as.Nodup) (hmem : ∀ a ∈ as, a ∈ bs) : sum as ≤ sum bs := by
  obtain ⟨cs, hperm, hsublist⟩ := hnodup.subperm hmem
  calc
    sum as = sum cs := (h.eq_of_perm hperm).symm
    _ ≤ sum bs := h.le_of_sublist hsublist

theorem isSum_total (size : α → ℕ) : IsSum (total size) fun a => size a + 1 := fun _ _ => rfl

variable {item : Reader α} {size : α → ℕ} {close : UInt8}

theorem sequence_bounded (h : Bounded size item) (n : ℕ) :
    Bounded (total size) (sequence item close n) := by
  induction n with
  | zero =>
    intro s as t hread
    cases hread
  | succ n ih =>
    intro s as t hread
    rw [sequence] at hread
    obtain ⟨⟨a, s₁⟩, ha, hread⟩ := Option.bind_eq_some_iff.mp hread
    have hitem := h s a s₁ ha
    dsimp only at hread
    split at hread
    · rename_i s₂ hcomma
      obtain ⟨⟨as', s₃⟩, has, hread⟩ := Option.bind_eq_some_iff.mp hread
      obtain ⟨rfl, rfl⟩ := Prod.mk.inj (Option.some.inj hread)
      have hrest := ih s₂ as' s₃ has
      have hsymbol := length_of_symbol hcomma
      rw [total_cons]
      dsimp only
      omega
    · obtain ⟨s₂, hclose, hread⟩ := Option.bind_eq_some_iff.mp hread
      obtain ⟨rfl, rfl⟩ := Prod.mk.inj (Option.some.inj hread)
      have hsymbol := length_of_symbol hclose
      rw [total_cons, total_nil]
      omega

theorem items_bounded (h : Bounded size item) : Bounded (total size) (items item close) := by
  intro s as t hread
  rw [items] at hread
  split at hread
  · rename_i s₁ hclose
    obtain ⟨rfl, rfl⟩ := Prod.mk.inj (Option.some.inj hread)
    have hsymbol := length_of_symbol hclose
    rw [total_nil]
    omega
  · exact sequence_bounded h s.length s as t hread

/-- What holds of every item holds of every item of a list. -/
theorem sequence_forall {P : α → Prop} (h : ∀ s a t, item s = some (a, t) → P a) {n : ℕ}
    {s t : Text} {as : List α} (hread : sequence item close n s = some (as, t)) :
    ∀ a ∈ as, P a := by
  induction n generalizing s as with
  | zero => cases hread
  | succ n ih =>
    rw [sequence] at hread
    obtain ⟨⟨a, s₁⟩, ha, hread⟩ := Option.bind_eq_some_iff.mp hread
    have hP := h s a s₁ ha
    dsimp only at hread
    split at hread
    · obtain ⟨⟨as', s₃⟩, has, hread⟩ := Option.bind_eq_some_iff.mp hread
      obtain ⟨rfl, rfl⟩ := Prod.mk.inj (Option.some.inj hread)
      exact List.forall_mem_cons.mpr ⟨hP, ih has⟩
    · obtain ⟨s₂, -, hread⟩ := Option.bind_eq_some_iff.mp hread
      obtain ⟨rfl, rfl⟩ := Prod.mk.inj (Option.some.inj hread)
      exact List.forall_mem_singleton.mpr hP

theorem items_forall {P : α → Prop} (h : ∀ s a t, item s = some (a, t) → P a) {s t : Text}
    {as : List α} (hread : items item close s = some (as, t)) : ∀ a ∈ as, P a := by
  rw [items] at hread
  split at hread
  · obtain ⟨rfl, rfl⟩ := Prod.mk.inj (Option.some.inj hread)
    intro a ha
    cases ha
  · exact sequence_forall h hread

/-- What a reader gives back of the texts of a writer, before any text of `Ends`. -/
def ReadsBack (Ends : Text → Prop) (reader : Reader α) (write : α → Text) (a : α) : Prop :=
  ∀ t, Ends t → reader (write a ++ t) = some (a, t)

theorem symbol_comma_eq_none {w : Text} (hw : Blank w) (hclose : isSpace close = false)
    (hne : close ≠ comma) (t : Text) : symbol comma (w ++ close :: t) = none := by
  rw [symbol, skip_append hw, skip_cons hclose]
  simp only [hne, ↓reduceIte]

theorem sequence_joined {Ends : Text → Prop} {write : α → Text} {as : List α} {w t : Text}
    (has : as ≠ []) (hread : ∀ a ∈ as, ReadsBack Ends item write a) (hw : Blank w)
    (hclose : isSpace close = false) (hne : close ≠ comma) (hcomma : ∀ t, Ends (comma :: t))
    (hend : Ends (w ++ close :: t)) {n : ℕ} (hn : as.length ≤ n) :
    sequence item close n (joined write as ++ (w ++ close :: t)) = some (as, t) := by
  induction as generalizing n with
  | nil => exact absurd rfl has
  | cons a as ih =>
    obtain ⟨n, rfl⟩ : ∃ k, n = k + 1 := ⟨n - 1, by rw [List.length_cons] at hn; omega⟩
    have ha := hread a List.mem_cons_self
    cases as with
    | nil =>
      rw [sequence, joined, ha _ hend]
      simp only [Option.bind_eq_bind, Option.bind_some, symbol_comma_eq_none hw hclose hne,
        symbol_append hw hclose]
    | cons b as =>
      have hrest := ih (List.cons_ne_nil b as) (fun c hc => hread c (List.mem_cons_of_mem a hc))
        (n := n) (by rw [List.length_cons] at hn; omega)
      have hsymbol : symbol comma (comma :: (joined write (b :: as) ++ (w ++ close :: t))) =
          some (joined write (b :: as) ++ (w ++ close :: t)) :=
        symbol_append (w := []) (fun b hb => by cases hb) rfl _
      rw [sequence, joined, List.append_assoc, List.cons_append, ha _ (hcomma _)]
      simp only [Option.bind_eq_bind, Option.bind_some, hsymbol, hrest]

theorem length_le_joined (write : α → Text) (as : List α) :
    as.length ≤ (joined write as).length + 1 := by
  induction as with
  | nil => exact Nat.zero_le _
  | cons a as ih =>
    cases as with
    | nil => simp
    | cons b as =>
      rw [joined, List.length_append]
      simp only [List.length_cons] at ih ⊢
      omega

/-- A list is read back from its texts, with white space before the end. -/
theorem items_joined {Ends : Text → Prop} {write : α → Text} {as : List α} {w t : Text}
    (has : as ≠ []) (hread : ∀ a ∈ as, ReadsBack Ends item write a) (hw : Blank w)
    (hclose : isSpace close = false) (hne : close ≠ comma) (hcomma : ∀ t, Ends (comma :: t))
    (hend : Ends (w ++ close :: t))
    (hopen : ∀ s, symbol close (joined write as ++ s) = none) :
    items item close (joined write as ++ (w ++ close :: t)) = some (as, t) := by
  rw [items, hopen]
  apply sequence_joined has hread hw hclose hne hcomma hend
  have hlength := length_le_joined write as
  simp only [List.length_append, List.length_cons]
  omega

end Readers
