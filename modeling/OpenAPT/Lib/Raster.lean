import Mathlib.Algebra.BigOperators.Group.Finset.Basic
import Mathlib.Data.List.Nodup
import Mathlib.Logic.Function.Basic

/-! Loops over the pixels of a rectangle: the order of the pixels, sums over them, passes that treat
each pixel by itself, and exchanges in place. -/
namespace Raster

open Finset Function

/-- The pixels `(x, y)` in the order of two nested loops, the one over the rows outside. -/
def pixels (width height : ℕ) : List (ℕ × ℕ) :=
  (List.range height).flatMap fun y => (List.range width).map fun x => (x, y)

variable {width height : ℕ}

@[simp] theorem mem_pixels {p : ℕ × ℕ} : p ∈ pixels width height ↔ p.1 < width ∧ p.2 < height := by
  simp only [pixels, List.mem_flatMap, List.mem_map, List.mem_range]
  constructor
  · rintro ⟨y, hy, x, hx, rfl⟩
    exact ⟨hx, hy⟩
  · intro ⟨hx, hy⟩
    exact ⟨p.2, hy, p.1, hx, rfl⟩

theorem nodup_pixels (width height : ℕ) : (pixels width height).Nodup := by
  apply List.nodup_flatMap.mpr
  constructor
  · intro y _
    exact List.nodup_range.map fun x x' hx => congrArg Prod.fst hx
  · -- different rows have no pixel in common
    refine List.nodup_range.imp fun {y y'} hne => ?_
    intro p hp hp'
    obtain ⟨x, -, rfl⟩ := List.mem_map.mp hp
    obtain ⟨x', -, heq⟩ := List.mem_map.mp hp'
    exact hne (congrArg Prod.snd heq).symm

theorem length_pixels (width height : ℕ) : (pixels width height).length = width * height := by
  simp only [pixels, List.length_flatMap, List.length_map, List.length_range, List.map_const',
    List.sum_replicate_nat, Nat.mul_comm width]

section Sums

variable {M : Type*} [AddCommMonoid M]

theorem sum_pixels (width height : ℕ) (f : ℕ × ℕ → M) :
    ((pixels width height).map f).sum = ∑ p ∈ range width ×ˢ range height, f p := by
  have hset : (pixels width height).toFinset = range width ×ˢ range height := by
    ext p
    rw [List.mem_toFinset, mem_pixels, mem_product, mem_range, mem_range]
  rw [← hset, List.sum_toFinset f (nodup_pixels width height)]

/-- A loop that adds up. -/
theorem foldl_add {ι : Type*} (f : ι → M) (l : List ι) (s : M) :
    l.foldl (fun s p => s + f p) s = s + (l.map f).sum := by
  induction l generalizing s with
  | nil => rw [List.foldl_nil, List.map_nil, List.sum_nil, add_zero]
  | cons p l ih => rw [List.foldl_cons, ih, List.map_cons, List.sum_cons, add_assoc]

/-- A loop that adds up over the pixels with a property. -/
theorem foldl_pixels_if (P : ℕ × ℕ → Prop) [DecidablePred P] (f : ℕ × ℕ → M) (width height : ℕ)
    (s : M) : (pixels width height).foldl (fun s p => if P p then s + f p else s) s =
      s + ∑ p ∈ range width ×ˢ range height with P p, f p := by
  have hstep : (fun (s : M) (p : ℕ × ℕ) => if P p then s + f p else s) =
      fun s p => s + if P p then f p else 0 := by
    funext s p
    split_ifs
    · rfl
    · exact (add_zero s).symm
  rw [hstep, foldl_add, sum_pixels, sum_filter]

theorem foldl_range_add (f : ℕ → M) (n : ℕ) (s : M) :
    (List.range n).foldl (fun s i => s + f i) s = s + ∑ i ∈ range n, f i := by
  have hset : (List.range n).toFinset = range n := by
    ext i
    rw [List.mem_toFinset, List.mem_range, mem_range]
  rw [foldl_add, ← hset, List.sum_toFinset f List.nodup_range]

/-- Two sums in one loop. -/
theorem foldl_range_pair {N : Type*} [AddCommMonoid N] (f : ℕ → M) (g : ℕ → N) (n : ℕ)
    (s : M × N) : (List.range n).foldl (fun s i => (s.1 + f i, s.2 + g i)) s =
      (s.1 + ∑ i ∈ range n, f i, s.2 + ∑ i ∈ range n, g i) := by
  induction n with
  | zero => simp only [List.range_zero, List.foldl_nil, sum_range_zero, add_zero]
  | succ n ih =>
    rw [List.range_succ, List.foldl_append, ih, List.foldl_cons, List.foldl_nil, sum_range_succ,
      sum_range_succ, add_assoc, add_assoc]

end Sums

section Parts

variable {ι κ T : Type*} [DecidableEq κ]

/-- A pass in which each turn `p` sets the places that belong to `p`, from what it computed. -/
theorem foldlM_parts_eq_some_iff {α : Type*} (key : ι → κ) (f : κ → Option α)
    (write : α → ι → T → T) (l : List κ) (hl : l.Nodup) (v out : ι → T) :
    l.foldlM (fun v p => (f p).map fun a i => if key i = p then write a i (v i) else v i) v =
        some out ↔
      (∀ p ∈ l, ∃ a, f p = some a ∧ ∀ i, key i = p → out i = write a i (v i)) ∧
        ∀ i, key i ∉ l → out i = v i := by
  induction l generalizing v with
  | nil =>
    have hnil : (∀ i, key i ∉ ([] : List κ) → out i = v i) ↔ v = out :=
      ⟨fun h => funext fun i => (h i List.not_mem_nil).symm, fun h i _ => congrFun h.symm i⟩
    rw [List.foldlM_nil, hnil, and_iff_right (List.forall_mem_nil _)]
    exact Option.some_inj
  | cons p l ih =>
    obtain ⟨hp, hl⟩ := List.nodup_cons.mp hl
    have hne {i : ι} (hi : key i ∈ l) : key i ≠ p := fun h => hp (h ▸ hi)
    rw [List.foldlM_cons, List.forall_mem_cons]
    cases hf : f p with
    | none =>
      refine iff_of_false nofun ?_
      rintro ⟨⟨⟨a, ha, -⟩, -⟩, -⟩
      cases ha
    | some a =>
      simp only [Option.map_some, Option.bind_eq_bind, Option.bind_some, Option.some_inj,
        exists_eq_left']
      rw [ih hl]
      constructor
      · intro ⟨hin, hout⟩
        refine ⟨⟨fun i hi => ?_, fun q hq => ?_⟩, fun i hi => ?_⟩
        · rw [hout i (hi ▸ hp), if_pos hi]
        · obtain ⟨b, hb, hvalue⟩ := hin q hq
          refine ⟨b, hb, fun i hi => ?_⟩
          rw [hvalue i hi, if_neg (hne (hi ▸ hq))]
        · obtain ⟨hip, hil⟩ := not_or.mp (mt List.mem_cons.mpr hi)
          rw [hout i hil, if_neg hip]
      · intro ⟨⟨hhead, hin⟩, hout⟩
        refine ⟨fun q hq => ?_, fun i hi => ?_⟩
        · obtain ⟨b, hb, hvalue⟩ := hin q hq
          refine ⟨b, hb, fun i hi => ?_⟩
          rw [hvalue i hi, if_neg (hne (hi ▸ hq))]
        · by_cases hip : key i = p
          · rw [if_pos hip, hhead i hip]
          · rw [if_neg hip]
            exact hout i fun hmem => (List.mem_cons.mp hmem).elim hip hi

end Parts

section Places

variable {ι T : Type*} [DecidableEq ι]

/-- A pass in which each place is set from its own value. -/
theorem foldl_update (f : ι → T → T) (l : List ι) (hl : l.Nodup) (v : ι → T) (q : ι) :
    l.foldl (fun v p => update v p (f p (v p))) v q = if q ∈ l then f q (v q) else v q := by
  induction l generalizing v with
  | nil => exact (if_neg List.not_mem_nil).symm
  | cons p l ih =>
    obtain ⟨hp, hl⟩ := List.nodup_cons.mp hl
    rw [List.foldl_cons, ih hl]
    by_cases hq : q = p
    · subst hq
      rw [if_neg hp, if_pos List.mem_cons_self, update_self]
    · rw [update_of_ne hq]
      simp only [List.mem_cons, hq, false_or]

/-- The same where a new value may not be defined. -/
theorem foldlM_update_eq_some_iff (f : ι → T → Option T) (l : List ι) (hl : l.Nodup)
    (v out : ι → T) :
    l.foldlM (fun v p => (f p (v p)).map (update v p)) v = some out ↔
      (∀ p ∈ l, f p (v p) = some (out p)) ∧ ∀ q ∉ l, out q = v q := by
  induction l generalizing v with
  | nil =>
    have hnil : (∀ q ∉ ([] : List ι), out q = v q) ↔ v = out :=
      ⟨fun h => funext fun q => (h q List.not_mem_nil).symm, fun h q _ => congrFun h.symm q⟩
    rw [List.foldlM_nil, hnil, and_iff_right (List.forall_mem_nil _)]
    exact Option.some_inj
  | cons p l ih =>
    obtain ⟨hp, hl⟩ := List.nodup_cons.mp hl
    have hne {q : ι} (hq : q ∈ l) : q ≠ p := fun h => hp (h ▸ hq)
    rw [List.foldlM_cons, List.forall_mem_cons]
    cases hf : f p (v p) with
    | none => exact iff_of_false nofun nofun
    | some t =>
      have hstep := ih hl (update v p t)
      simp only [Option.map_some, Option.bind_eq_bind, Option.bind_some, Option.some_inj]
      rw [hstep]
      constructor
      · intro ⟨hin, hout⟩
        refine ⟨⟨?_, fun q hq => ?_⟩, fun q hq => ?_⟩
        · rw [hout p hp, update_self]
        · rw [← hin q hq, update_of_ne (hne hq)]
        · obtain ⟨hqp, hql⟩ := not_or.mp (mt List.mem_cons.mpr hq)
          rw [hout q hql, update_of_ne hqp]
      · intro ⟨⟨hhead, hin⟩, hout⟩
        refine ⟨fun q hq => ?_, fun q hq => ?_⟩
        · rw [update_of_ne (hne hq), hin q hq]
        · by_cases hqp : q = p
          · rw [hqp, update_self, hhead]
          · rw [update_of_ne hqp]
            exact hout q fun hmem => (List.mem_cons.mp hmem).elim hqp hq

/-- `swap` of the values at two places. -/
def exchange (p q : ι) (v : ι → T) : ι → T := update (update v p (v q)) q (v p)

theorem exchange_left (p q : ι) (v : ι → T) : exchange p q v p = v q := by
  by_cases h : p = q
  · subst h
    exact update_self ..
  · rw [exchange, update_of_ne h, update_self]

theorem exchange_right (p q : ι) (v : ι → T) : exchange p q v q = v p := update_self ..

theorem exchange_of_ne {p q i : ι} (hp : i ≠ p) (hq : i ≠ q) (v : ι → T) :
    exchange p q v i = v i := by
  rw [exchange, update_of_ne hq, update_of_ne hp]

variable {σ : ι → ι}

/-- The loop invariant of exchanges with a partner: after the places of `l` two partners hold each
other's value exactly if one of them was visited and the other was not. -/
theorem foldl_exchange (hσ : Involutive σ) (l : List ι) (hl : l.Nodup) (v : ι → T) (i : ι) :
    l.foldl (fun v p => exchange p (σ p) v) v i = if (i ∈ l ↔ σ i ∈ l) then v i else v (σ i) := by
  induction l using List.reverseRecOn generalizing i with
  | nil => exact (if_pos (iff_of_false List.not_mem_nil List.not_mem_nil)).symm
  | append_singleton l p ih =>
    have hnodup := List.nodup_append.mp hl
    have hp : p ∉ l := fun hmem => hnodup.2.2 p hmem p (List.mem_singleton_self p) rfl
    have ih := ih hnodup.1
    rw [List.foldl_append, List.foldl_cons, List.foldl_nil]
    by_cases hfix : σ p = p
    · -- a place that is its own partner keeps its value
      by_cases hi : i = p
      · subst hi
        rw [exchange_left, ih, hfix, hfix, if_pos Iff.rfl, if_pos Iff.rfl]
      · have hσi : σ i ≠ p := fun h => hi (by rw [← hσ i, h, hfix])
        rw [exchange_of_ne hi (by rwa [hfix]), ih]
        simp only [List.mem_append, List.mem_singleton, hi, hσi, or_false]
    · -- the last exchange is between two places, `p` and its partner
      by_cases hi : i = p
      · subst hi
        rw [exchange_left, ih, hσ i]
        simp only [List.mem_append, List.mem_singleton, hp, hfix, or_true, or_false, true_iff,
          iff_false, ite_not]
      · by_cases hi' : i = σ p
        · subst hi'
          rw [exchange_right, ih, hσ p]
          simp only [List.mem_append, List.mem_singleton, hp, hfix, or_true, or_false, iff_true,
            false_iff, ite_not]
        · have hσi : σ i ≠ p := fun h => hi' (by rw [← h, hσ i])
          rw [exchange_of_ne hi hi', ih]
          simp only [List.mem_append, List.mem_singleton, hi, hσi, or_false]

/-- Where every partner is visited too, each pair is exchanged twice. -/
theorem foldl_exchange_of_closed (hσ : Involutive σ) (l : List ι) (hl : l.Nodup)
    (hclosed : ∀ p ∈ l, σ p ∈ l) (v : ι → T) :
    l.foldl (fun v p => exchange p (σ p) v) v = v := by
  funext i
  rw [foldl_exchange hσ l hl, if_pos]
  constructor
  · exact hclosed i
  · intro h
    rw [← hσ i]
    exact hclosed _ h

end Places

/-- The index `i` of `n`, counted from the other end. -/
def reflect (n i : ℕ) : ℕ := if i < n then n - 1 - i else i

theorem reflect_of_lt {n i : ℕ} (h : i < n) : reflect n i = n - 1 - i := if_pos h

theorem reflect_lt {n i : ℕ} (h : i < n) : reflect n i < n := by
  rw [reflect_of_lt h]
  omega

theorem reflect_involutive (n : ℕ) : Involutive (reflect n) := by
  intro i
  unfold reflect
  split_ifs <;> omega

end Raster
