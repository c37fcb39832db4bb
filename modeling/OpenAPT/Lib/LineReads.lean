import Mathlib.Data.List.Basic
import Mathlib.Tactic.Common
import OpenAPT.Lib.Delimited

/-! A stream read line by line into a buffer: a read ends behind a delimiter or when the buffer is
full. -/
namespace LineReads
open Delimited

variable {α : Type*} [DecidableEq α] (d : α)

/-- One read into a buffer with room for as many elements, and what is left. -/
def read : ℕ → List α → List α × List α
  | 0, s => ([], s)
  | _ + 1, [] => ([], [])
  | room + 1, a :: s => if a = d then ([a], s) else (a :: (read room s).1, (read room s).2)

variable {d}

theorem read_append (room : ℕ) (s : List α) : (read d room s).1 ++ (read d room s).2 = s := by
  induction s generalizing room with
  | nil => cases room <;> rfl
  | cons a s ih =>
    cases room with
    | zero => rfl
    | succ room =>
      rw [read]
      split_ifs
      · rfl
      · rw [List.cons_append, ih room]

theorem read_ne_nil {room : ℕ} (hroom : 0 < room) {s : List α} (hs : s ≠ []) :
    (read d room s).1 ≠ [] := by
  obtain ⟨a, t, rfl⟩ := List.exists_cons_of_ne_nil hs
  cases room with
  | zero => omega
  | succ room =>
    rw [read]
    split_ifs
    · exact List.cons_ne_nil a []
    · exact List.cons_ne_nil a _

theorem length_read_lt {room : ℕ} (hroom : 0 < room) {s : List α} (hs : s ≠ []) :
    (read d room s).2.length < s.length := by
  have hpos := List.length_pos_iff.mpr (read_ne_nil (d := d) hroom hs)
  have hsplit := congrArg List.length (read_append (d := d) room s)
  rw [List.length_append] at hsplit
  omega

variable (d)

/-- Reads until nothing is left. -/
def reads (room : ℕ) (hroom : 0 < room) (s : List α) : List (List α) :=
  if h : s = [] then []
  else
    have := length_read_lt (d := d) hroom h
    (read d room s).1 :: reads room hroom (read d room s).2
termination_by s.length

variable {d} {room : ℕ} {hroom : 0 < room}

theorem reads_nil : reads d room hroom [] = [] := by rw [reads, dif_pos rfl]

theorem reads_of_ne_nil {s : List α} (hs : s ≠ []) :
    reads d room hroom s = (read d room s).1 :: reads d room hroom (read d room s).2 := by
  rw [reads, dif_neg hs]

/-- Nothing is lost between the reads. -/
theorem flatten_reads (s : List α) : (reads d room hroom s).flatten = s := by
  fun_induction reads d room hroom s with
  | case1 => rfl
  | case2 s h _ ih => rw [List.flatten_cons, ih, read_append]

/-- A line that fits into the buffer is read as a whole. -/
theorem read_line {t : List α} (hd : d ∉ t) (hfits : t.length < room) (s : List α) :
    read d room (t ++ d :: s) = (t ++ [d], s) := by
  induction t generalizing room with
  | nil =>
    cases room with
    | zero => exact absurd hfits (Nat.not_lt_zero _)
    | succ room => rw [List.nil_append, read, if_pos rfl, List.nil_append]
  | cons a t ih =>
    rw [List.mem_cons, not_or] at hd
    cases room with
    | zero => exact absurd hfits (Nat.not_lt_zero _)
    | succ room =>
      rw [List.length_cons] at hfits
      rw [List.cons_append, read, if_neg (Ne.symm hd.1), ih hd.2 (by omega), List.cons_append]

theorem reads_frames {ts : List (List α)} (hd : ∀ t ∈ ts, d ∉ t)
    (hfits : ∀ t ∈ ts, t.length < room) :
    reads d room hroom (frames d ts) = ts.map (· ++ [d]) := by
  induction ts with
  | nil => exact reads_nil
  | cons t ts ih =>
    rw [List.forall_mem_cons] at hd hfits
    have hne : t ++ d :: frames d ts ≠ [] :=
      List.append_ne_nil_of_right_ne_nil t (List.cons_ne_nil d _)
    rw [frames_cons, reads_of_ne_nil hne, read_line hd.1 hfits.1, List.map_cons, ih hd.2 hfits.2]

end LineReads
