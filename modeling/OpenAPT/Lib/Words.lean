import Mathlib.Algebra.Group.Nat.Even
import Mathlib.Data.List.TakeWhile
import Mathlib.Tactic.Common

/-! Texts read by words: the words of a text, one word at a time, and words taken in pairs. -/
namespace Words

variable {α : Type*} (space : α → Bool)

def IsWord (w : List α) : Prop := w ≠ [] ∧ ∀ c ∈ w, space c = false

instance (w : List α) [DecidableEq α] : Decidable (IsWord space w) :=
  inferInstanceAs (Decidable (_ ∧ _))

/-- The words of a text, `acc` being what is read of the current one. -/
def wordsFrom : List α → List α → List (List α)
  | acc, [] => if acc.isEmpty then [] else [acc]
  | acc, c :: s =>
    if space c then
      if acc.isEmpty then wordsFrom [] s else acc :: wordsFrom [] s
    else wordsFrom (acc ++ [c]) s

def words (s : List α) : List (List α) := wordsFrom space [] s

/-- One read: leading space is skipped; the word ends before the next space. -/
def extract (s : List α) : List α × List α :=
  ((s.dropWhile space).takeWhile (!space ·), (s.dropWhile space).dropWhile (!space ·))

variable {space}

theorem wordsFrom_append {w : List α} (hw : ∀ c ∈ w, space c = false) (acc s : List α) :
    wordsFrom space acc (w ++ s) = wordsFrom space (acc ++ w) s := by
  induction w generalizing acc with
  | nil => rw [List.nil_append, List.append_nil]
  | cons c w ih =>
    have hc : space c = false := hw c List.mem_cons_self
    rw [List.cons_append, wordsFrom, hc, if_neg Bool.false_ne_true,
      ih fun b hb => hw b (List.mem_cons_of_mem c hb), List.append_assoc, List.singleton_append]

/-- A space ends the words before it. -/
theorem wordsFrom_append_cons {c : α} (hc : space c = true) (acc a s : List α) :
    wordsFrom space acc (a ++ c :: s) = wordsFrom space acc a ++ words space s := by
  induction a generalizing acc with
  | nil =>
    rw [List.nil_append, wordsFrom.eq_2, if_pos hc, wordsFrom.eq_1]
    split_ifs <;> rfl
  | cons b a ih =>
    rw [List.cons_append, wordsFrom, wordsFrom, ih, ih]
    split_ifs <;> rfl

theorem words_append_cons {c : α} (hc : space c = true) (a s : List α) :
    words space (a ++ c :: s) = words space a ++ words space s :=
  wordsFrom_append_cons hc [] a s

theorem words_eq_singleton {w : List α} (hw : IsWord space w) : words space w = [w] := by
  have h := wordsFrom_append hw.2 [] []
  rw [List.append_nil, List.nil_append, wordsFrom,
    if_neg fun hempty => hw.1 (List.isEmpty_iff.mp hempty)] at h
  exact h

theorem isWord_of_mem_wordsFrom {acc s w : List α} (hacc : ∀ c ∈ acc, space c = false)
    (h : w ∈ wordsFrom space acc s) : IsWord space w := by
  have hword (hne : ¬ acc.isEmpty = true) : IsWord space acc :=
    ⟨fun hnil => hne (List.isEmpty_iff.mpr hnil), hacc⟩
  have hnil : ∀ c ∈ ([] : List α), space c = false := nofun
  induction s generalizing acc with
  | nil =>
    rw [wordsFrom] at h
    split_ifs at h with hempty
    · exact absurd h List.not_mem_nil
    · rw [List.mem_singleton.mp h]
      exact hword hempty
  | cons c s ih =>
    rw [wordsFrom] at h
    split_ifs at h with hc hempty
    · exact ih hnil h fun hne => absurd rfl hne
    · rcases List.mem_cons.mp h with rfl | h
      · exact hword hempty
      · exact ih hnil h fun hne => absurd rfl hne
    · have hcons : ∀ b ∈ acc ++ [c], space b = false := by
        intro b hb
        rcases List.mem_append.mp hb with hb | hb
        · exact hacc b hb
        · rw [List.mem_singleton.mp hb]
          exact Bool.eq_false_iff.mpr hc
      refine ih hcons h fun _ => ⟨?_, hcons⟩
      exact List.append_ne_nil_of_right_ne_nil acc (List.cons_ne_nil c [])

theorem isWord_of_mem_words {s w : List α} (h : w ∈ words space s) : IsWord space w :=
  isWord_of_mem_wordsFrom (fun _ hc => absurd hc List.not_mem_nil) h

theorem words_dropWhile (s : List α) : words space (s.dropWhile space) = words space s := by
  induction s with
  | nil => rfl
  | cons c s ih =>
    rw [List.dropWhile_cons]
    split_ifs with hc
    · rw [ih]
      exact (words_append_cons hc [] s).symm
    · rfl

theorem words_append_of_space {gap : List α} (hgap : ∀ c ∈ gap, space c = true) (s : List α) :
    words space (gap ++ s) = words space s := by
  induction gap with
  | nil => rfl
  | cons c gap ih =>
    rw [List.forall_mem_cons] at hgap
    rw [← ih hgap.2]
    exact words_append_cons hgap.1 [] (gap ++ s)

/-- Words with space behind each of them. -/
theorem words_flatMap {fields : List (List α × List α)}
    (hword : ∀ e ∈ fields, IsWord space e.1)
    (hgap : ∀ e ∈ fields, e.2 ≠ [] ∧ ∀ c ∈ e.2, space c = true) :
    words space (fields.flatMap fun e => e.1 ++ e.2) = fields.map Prod.fst := by
  induction fields with
  | nil => rfl
  | cons e fields ih =>
    rw [List.forall_mem_cons] at hword hgap
    obtain ⟨c, gap, hcons⟩ := List.exists_cons_of_ne_nil hgap.1.1
    have hspace : ∀ b ∈ c :: gap, space b = true := hcons ▸ hgap.1.2
    rw [List.forall_mem_cons] at hspace
    rw [List.flatMap_cons, hcons, List.append_assoc, List.cons_append,
      words_append_cons hspace.1, words_append_of_space hspace.2, words_eq_singleton hword.1,
      ih hword.2 hgap.2, List.map_cons, List.singleton_append]

/-- A word ends at a space, and at the end of the text. -/
theorem wordsFrom_of_head {w rest : List α} (hw : w ≠ [])
    (hrest : ∀ b ∈ rest.head?, space b = true) :
    wordsFrom space w rest = w :: words space rest := by
  have hne : ¬ w.isEmpty = true := fun h => hw (List.isEmpty_iff.mp h)
  cases rest with
  | nil => rw [wordsFrom, if_neg hne]; rfl
  | cons b rest =>
    have hb : space b = true := hrest b rfl
    rw [wordsFrom, if_pos hb, if_neg hne]
    exact congrArg (w :: ·) (words_append_cons hb [] rest).symm

/-- A read finds the first word and leaves the others. -/
theorem words_eq_extract {s : List α} (h : s.dropWhile space ≠ []) :
    IsWord space (extract space s).1 ∧
      words space s = (extract space s).1 :: words space (extract space s).2 := by
  obtain ⟨c, r, hcr⟩ := List.exists_cons_of_ne_nil h
  have hc : space c = false := by
    have hhead := List.head_dropWhile_not space h
    simpa only [hcr, List.head_cons] using hhead
  have hword : IsWord space (extract space s).1 := by
    constructor
    · simp only [extract, hcr, List.takeWhile_cons, hc, Bool.not_false, ↓reduceIte, ne_eq,
        reduceCtorEq, not_false_eq_true]
    · intro b hb
      simpa using List.mem_takeWhile_imp hb
  have hrest : ∀ b ∈ (extract space s).2.head?, space b = true := by
    intro b hb
    have hhead := List.head?_dropWhile_not (!space ·) (s.dropWhile space)
    rw [extract] at hb
    rw [Option.mem_def.mp hb] at hhead
    simpa using hhead
  refine ⟨hword, ?_⟩
  calc words space s
    _ = words space ((extract space s).1 ++ (extract space s).2) := by
      rw [extract, List.takeWhile_append_dropWhile, words_dropWhile]
    _ = wordsFrom space (extract space s).1 (extract space s).2 := by
      rw [words, wordsFrom_append hword.2, List.nil_append]
    _ = (extract space s).1 :: words space (extract space s).2 := wordsFrom_of_head hword.1 hrest

/-- A read of a text without words finds nothing. -/
theorem extract_eq_nil {s : List α} (h : s.dropWhile space = []) :
    extract space s = ([], []) ∧ words space s = [] := by
  refine ⟨?_, ?_⟩
  · simp only [extract, h, List.takeWhile_nil, List.dropWhile_nil]
  · rw [← words_dropWhile, h]
    rfl

theorem length_extract_le (s : List α) : (extract space s).2.length ≤ s.length :=
  ((List.dropWhile_suffix _).trans (List.dropWhile_suffix _)).length_le

/-- A read of a word takes some of the text. -/
theorem length_extract_lt {s : List α} (h : s.dropWhile space ≠ []) :
    (extract space s).2.length < s.length := by
  have hpos := List.length_pos_iff.mpr (words_eq_extract h).1.1
  have hsplit : (extract space s).1.length + (extract space s).2.length =
      (s.dropWhile space).length := by
    rw [← List.length_append, extract, List.takeWhile_append_dropWhile]
  have hle := (List.dropWhile_suffix (l := s) space).length_le
  omega

/-! Words are taken in pairs from the front; a word left over is dropped. -/

def pairUp : List α → List (α × α)
  | a :: b :: l => (a, b) :: pairUp l
  | _ => []

variable {β : Type*}

theorem pairUp_map (f : α → β) (l : List α) :
    pairUp (l.map f) = (pairUp l).map fun e => (f e.1, f e.2) := by
  induction l using pairUp.induct with
  | case1 a b l ih => simp only [List.map_cons, pairUp, ih]
  | case2 l h =>
    cases l with
    | nil => rfl
    | cons a l =>
      cases l with
      | nil => rfl
      | cons b l => exact absurd rfl (h a b l)

/-- Two words that stand together are a pair exactly if an even number of words comes before. -/
theorem mem_pairUp_iff {a b : α} {l : List α} :
    (a, b) ∈ pairUp l ↔ ∃ before after, l = before ++ a :: b :: after ∧ Even before.length := by
  induction l using pairUp.induct with
  | case1 x y l ih =>
    rw [pairUp, List.mem_cons, ih]
    constructor
    · rintro (heq | ⟨before, after, rfl, heven⟩)
      · obtain ⟨rfl, rfl⟩ := Prod.mk.inj heq
        exact ⟨[], l, rfl, Even.zero⟩
      · refine ⟨x :: y :: before, after, rfl, ?_⟩
        rw [List.length_cons, List.length_cons]
        exact heven.add ⟨1, rfl⟩
    · intro ⟨before, after, heq, heven⟩
      match before with
      | [] =>
        obtain ⟨rfl, rfl, -⟩ : x = a ∧ y = b ∧ l = after := by simpa using heq
        exact Or.inl rfl
      | [c] =>
        rw [Nat.even_iff, List.length_singleton] at heven
        omega
      | c :: d :: before =>
        obtain ⟨-, -, rfl⟩ : x = c ∧ y = d ∧ l = before ++ a :: b :: after := by simpa using heq
        refine Or.inr ⟨before, after, rfl, ?_⟩
        rw [Nat.even_iff, List.length_cons, List.length_cons] at heven
        rw [Nat.even_iff]
        omega
  | case2 l h =>
    have hlong : ∀ before after, l ≠ before ++ a :: b :: after := by
      intro before after heq
      match before with
      | [] => exact h a b after heq
      | [c] => exact h c a (b :: after) heq
      | c :: d :: before => exact h c d (before ++ a :: b :: after) heq
    have hnone : pairUp l = [] := by
      rw [pairUp]
      exact h
    rw [hnone]
    refine iff_of_false List.not_mem_nil ?_
    intro ⟨before, after, heq, _⟩
    exact hlong before after heq

theorem mem_of_mem_pairUp {a b : α} {l : List α} (h : (a, b) ∈ pairUp l) : a ∈ l ∧ b ∈ l := by
  obtain ⟨before, after, rfl, -⟩ := mem_pairUp_iff.mp h
  simp only [List.mem_append, List.mem_cons, true_or, or_true, and_self]

theorem pairUp_flatMap (f g : α → β) (l : List α) :
    pairUp (l.flatMap fun a => [f a, g a]) = l.map fun a => (f a, g a) := by
  induction l with
  | nil => rfl
  | cons a l ih => rw [List.flatMap_cons, List.map_cons, ← ih]; rfl

/-- Membership for a pair that is marked apart from all the rest. -/
theorem mem_pairUp_block_iff {p : α → Prop} [DecidablePred p] {a b : α} {before after : List α}
    (hbefore : ∀ c ∈ before, ¬ p c) (hafter : ∀ c ∈ after, ¬ p c) (ha : p a) (hb : p b) :
    (a, b) ∈ pairUp (before ++ a :: b :: after) ↔ Even before.length := by
  rw [mem_pairUp_iff]
  constructor
  · intro ⟨front, back, heq, heven⟩
    have hcount (l : List α) (hl : ∀ c ∈ l, ¬ p c) : l.countP (fun c => decide (p c)) = 0 :=
      List.countP_eq_zero.mpr fun c hc => by simpa using hl c hc
    -- the two marked words are the same two
    have hfront : ∀ c ∈ front, ¬ p c := by
      have hp := congrArg (List.countP fun c => decide (p c)) heq
      simp only [List.countP_append, List.countP_cons, ha, hb, decide_true, ↓reduceIte,
        hcount before hbefore, hcount after hafter] at hp
      have hzero : front.countP (fun c => decide (p c)) = 0 := by omega
      intro c hc
      simpa using List.countP_eq_zero.mp hzero c hc
    have htake (l m : List α) (hl : ∀ c ∈ l, ¬ p c) :
        (l ++ a :: m).takeWhile (fun c => !decide (p c)) = l := by
      rw [List.takeWhile_append_of_pos fun c hc => by simpa using hl c hc, List.takeWhile_cons,
        if_neg (by simpa using ha), List.append_nil]
    rwa [← htake before (b :: after) hbefore, heq, htake front (b :: back) hfront]
  · intro heven
    exact ⟨before, after, rfl, heven⟩

end Words
