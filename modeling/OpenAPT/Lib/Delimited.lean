import Mathlib.Data.List.Basic
import Mathlib.Tactic.Common

/-! A stream cut into segments and read up to a delimiter. A read takes whole segments, so it may
take more than the frame that the delimiter ends. -/
namespace Delimited

variable {α : Type*} [DecidableEq α] (d : α)

/-- The elements before the first delimiter. -/
def line (b : List α) : List α := b.takeWhile (· ≠ d)

/-- Segments are appended to the buffer until it has a delimiter; the buffer and what is left. -/
def readUntil : List α → List (List α) → Option (List α × List (List α))
  | buf, [] => if d ∈ buf then some (buf, []) else none
  | buf, seg :: segs => if d ∈ buf then some (buf, seg :: segs) else readUntil (buf ++ seg) segs

/-- The stream in which each frame is ended by a delimiter. -/
def frames (ts : List (List α)) : List α := (ts.map (· ++ [d])).flatten

/-- The lines of a stream, `acc` being what is read of the current one. What follows the last
delimiter is a line only if it is not empty. -/
def linesFrom : List α → List α → List (List α)
  | acc, [] => if acc = [] then [] else [acc]
  | acc, a :: s => if a = d then acc :: linesFrom [] s else linesFrom (acc ++ [a]) s

def lines (s : List α) : List (List α) := linesFrom d [] s

variable {d}

theorem line_append_cons {u : List α} (hu : d ∉ u) (x : List α) : line d (u ++ d :: x) = u := by
  have hpos : ∀ a ∈ u, decide (a ≠ d) = true := fun a ha =>
    decide_eq_true fun h => hu (h ▸ ha)
  rw [line, List.takeWhile_append_of_pos hpos, List.takeWhile_cons_of_neg (by simp),
    List.append_nil]

/-- The first delimiter cuts a stream in one way only. -/
theorem append_cons_inj {u v x y : List α} (hu : d ∉ u) (hv : d ∉ v)
    (h : u ++ d :: x = v ++ d :: y) : u = v ∧ x = y := by
  have huv : u = v := by rw [← line_append_cons hu x, h, line_append_cons hv y]
  subst huv
  exact ⟨rfl, List.cons.inj (List.append_cancel_left h) |>.2⟩

omit [DecidableEq α] in
theorem frames_cons (t : List α) (ts : List (List α)) :
    frames d (t :: ts) = t ++ d :: frames d ts := by
  simp only [frames, List.map_cons, List.flatten_cons, List.append_assoc, List.singleton_append]

/-- As many delimiters as frames, when no frame has one of its own. -/
theorem count_frames {ts : List (List α)} (h : ∀ t ∈ ts, d ∉ t) :
    (frames d ts).count d = ts.length := by
  induction ts with
  | nil => rfl
  | cons t ts ih =>
    have ht : t.count d = 0 := List.count_eq_zero.mpr (h t List.mem_cons_self)
    rw [frames_cons, List.count_append, List.count_cons_self, ht,
      ih fun u hu => h u (List.mem_cons_of_mem _ hu), List.length_cons]
    omega

theorem linesFrom_append {t : List α} (ht : d ∉ t) (acc s : List α) :
    linesFrom d acc (t ++ s) = linesFrom d (acc ++ t) s := by
  induction t generalizing acc with
  | nil => rw [List.nil_append, List.append_nil]
  | cons a t ih =>
    rw [List.mem_cons, not_or] at ht
    rw [List.cons_append, linesFrom, if_neg (Ne.symm ht.1), ih ht.2, List.append_assoc,
      List.singleton_append]

theorem not_mem_of_mem_linesFrom {acc s t : List α} (hacc : d ∉ acc)
    (h : t ∈ linesFrom d acc s) : d ∉ t := by
  induction s generalizing acc with
  | nil =>
    rw [linesFrom] at h
    split_ifs at h
    · exact absurd h List.not_mem_nil
    · rwa [List.mem_singleton.mp h]
  | cons a s ih =>
    rw [linesFrom] at h
    split_ifs at h with ha
    · rcases List.mem_cons.mp h with rfl | h
      · exact hacc
      · exact ih List.not_mem_nil h
    · apply ih _ h
      rw [List.mem_append, List.mem_singleton, not_or]
      exact ⟨hacc, Ne.symm ha⟩

/-- The frames are read back as the lines exactly when none of them has a delimiter. -/
theorem lines_frames_iff {ts : List (List α)} :
    lines d (frames d ts) = ts ↔ ∀ t ∈ ts, d ∉ t := by
  constructor
  · intro h t ht
    rw [← h] at ht
    exact not_mem_of_mem_linesFrom List.not_mem_nil ht
  · intro h
    induction ts with
    | nil => rfl
    | cons t ts ih =>
      have hts := ih fun u hu => h u (List.mem_cons_of_mem _ hu)
      rw [frames_cons, lines, linesFrom_append (h t List.mem_cons_self), linesFrom, if_pos rfl,
        List.nil_append]
      exact congrArg (t :: ·) hts

/-- Lines with a delimiter between them, and none at the end. -/
theorem lines_join {t : List α} {ts : List (List α)} (ht : t ≠ [] ∧ d ∉ t)
    (hts : ∀ u ∈ ts, u ≠ [] ∧ d ∉ u) : lines d (t ++ ts.flatMap (d :: ·)) = t :: ts := by
  induction ts generalizing t with
  | nil =>
    rw [List.flatMap_nil, lines, linesFrom_append ht.2, linesFrom, List.nil_append, if_neg ht.1]
  | cons u ts ih =>
    rw [List.forall_mem_cons] at hts
    rw [List.flatMap_cons, lines, List.cons_append, linesFrom_append ht.2, linesFrom, if_pos rfl,
      List.nil_append]
    exact congrArg (t :: ·) (ih hts.1 hts.2)

omit [DecidableEq α] in
/-- What begins with the delimiter is not found where there is none. -/
theorem cons_infix_append_iff {a : List α} (ha : d ∉ a) {p s : List α} :
    (d :: p) <:+: a ++ s ↔ (d :: p) <:+: s := by
  induction a with
  | nil => rfl
  | cons b a ih =>
    rw [List.mem_cons, not_or] at ha
    rw [List.cons_append, List.infix_cons_iff, List.cons_prefix_cons, ih ha.2]
    exact or_iff_right fun h => ha.1 h.1

omit [DecidableEq α] in
/-- Nor at a delimiter that something else follows. -/
theorem cons_infix_cons_iff {p s : List α} (hp : ¬ p <+: s) :
    (d :: p) <:+: d :: s ↔ (d :: p) <:+: s := by
  rw [List.infix_cons_iff, List.cons_prefix_cons]
  exact or_iff_right fun h => hp h.2

omit [DecidableEq α] in
/-- What a stream begins with is its first element. -/
theorem not_cons_prefix_append {c b : α} {p a s : List α} (h : ∀ x ∈ (a ++ [b]).head?, x ≠ c) :
    ¬ (c :: p) <+: a ++ b :: s := by
  intro hpre
  cases a with
  | nil => exact h b rfl (List.cons_prefix_cons.mp hpre).1.symm
  | cons x a => exact h x rfl (List.cons_prefix_cons.mp hpre).1.symm

/-- How a read cuts the segments: after some without a delimiter comes the one that ends the read,
with `extra` after its delimiter. -/
structure Cut (d : α) (segs : List (List α)) where
  before : List (List α)
  head : List α
  extra : List α
  after : List (List α)
  segs_eq : segs = before ++ (head ++ d :: extra) :: after
  before_free : d ∉ before.flatten
  head_free : d ∉ head

namespace Cut

omit [DecidableEq α]

variable {segs : List (List α)}

/-- The frame that the read finds. -/
def frame (c : Cut d segs) : List α := c.before.flatten ++ c.head

theorem frame_free (c : Cut d segs) : d ∉ c.frame := by
  rw [frame, List.mem_append, not_or]
  exact ⟨c.before_free, c.head_free⟩

theorem flatten_eq (c : Cut d segs) :
    segs.flatten = c.frame ++ d :: (c.extra ++ c.after.flatten) := by
  conv_lhs => rw [c.segs_eq]
  simp only [frame, List.flatten_append, List.flatten_cons, List.append_assoc, List.cons_append]

end Cut

/-- A read of a stream without a delimiter fails. -/
theorem readUntil_eq_none {buf : List α} {segs : List (List α)} (hbuf : d ∉ buf)
    (h : d ∉ segs.flatten) : readUntil d buf segs = none := by
  induction segs generalizing buf with
  | nil => rw [readUntil, if_neg hbuf]
  | cons seg segs ih =>
    rw [List.flatten_cons, List.mem_append, not_or] at h
    have hnext : d ∉ buf ++ seg := by
      rw [List.mem_append, not_or]
      exact ⟨hbuf, h.1⟩
    rw [readUntil, if_neg hbuf, ih hnext h.2]

theorem readUntil_of_mem {buf : List α} (h : d ∈ buf) (segs : List (List α)) :
    readUntil d buf segs = some (buf, segs) := by
  cases segs <;> rw [readUntil, if_pos h]

/-- A read takes the segments up to the first delimiter. -/
theorem readUntil_append {buf : List α} {before : List (List α)} {head extra : List α}
    {after : List (List α)} (hbuf : d ∉ buf) (hbefore : d ∉ before.flatten) :
    readUntil d buf (before ++ (head ++ d :: extra) :: after) =
      some (buf ++ before.flatten ++ (head ++ d :: extra), after) := by
  induction before generalizing buf with
  | nil =>
    rw [List.nil_append, readUntil, if_neg hbuf, readUntil_of_mem (by simp), List.flatten_nil,
      List.append_nil]
  | cons seg before ih =>
    rw [List.flatten_cons, List.mem_append, not_or] at hbefore
    have hnext : d ∉ buf ++ seg := by
      rw [List.mem_append, not_or]
      exact ⟨hbuf, hbefore.1⟩
    rw [List.cons_append, readUntil, if_neg hbuf, ih hnext hbefore.2, List.flatten_cons]
    simp only [List.append_assoc]

omit [DecidableEq α] in
/-- A stream with a delimiter can be cut. -/
theorem nonempty_cut {segs : List (List α)} (h : d ∈ segs.flatten) : Nonempty (Cut d segs) := by
  induction segs with
  | nil => cases h
  | cons seg segs ih =>
    by_cases hseg : d ∈ seg
    · obtain ⟨head, extra, rfl, hhead⟩ := List.eq_append_cons_of_mem hseg
      exact ⟨⟨[], head, extra, segs, rfl, List.not_mem_nil, hhead⟩⟩
    · have hsegs : d ∈ segs.flatten := by
        rw [List.flatten_cons, List.mem_append] at h
        exact h.resolve_left hseg
      obtain ⟨c⟩ := ih hsegs
      refine ⟨⟨seg :: c.before, c.head, c.extra, c.after, ?_, ?_, c.head_free⟩⟩
      · rw [List.cons_append, ← c.segs_eq]
      · rw [List.flatten_cons, List.mem_append, not_or]
        exact ⟨hseg, c.before_free⟩

/-- A read takes the segments of its cut and finds the frame. -/
theorem readUntil_cut {segs : List (List α)} (c : Cut d segs) :
    ∃ buf, readUntil d [] segs = some (buf, c.after) ∧ line d buf = c.frame := by
  refine ⟨c.before.flatten ++ (c.head ++ d :: c.extra), ?_, ?_⟩
  · conv_lhs => rw [c.segs_eq]
    rw [readUntil_append List.not_mem_nil c.before_free, List.nil_append]
  · rw [← List.append_assoc]
    exact line_append_cons c.frame_free c.extra

end Delimited
