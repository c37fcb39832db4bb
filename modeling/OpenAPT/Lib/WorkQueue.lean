import Mathlib.Algebra.BigOperators.Group.Finset.Basic
import Mathlib.Algebra.Order.Group.Multiset
import Mathlib.Data.List.Basic
import Mathlib.Tactic.Common

/-! A FIFO queue of numbered items and a finite set of workers. Each item is put into the queue,
taken by a worker, started and finished; the histories of these moves account for every item. -/

/-- Where a worker stands between two moves. -/
inductive Stage
  | free
  | holding (item : ℕ)
  | running (item : ℕ)
  | gone
  deriving DecidableEq

namespace Stage

/-- The item that a worker has taken and not started. -/
def held : Stage → List ℕ
  | holding item => [item]
  | _ => []

/-- The item that a worker has started and not finished. -/
def unfinished : Stage → List ℕ
  | running item => [item]
  | _ => []

@[simp] theorem held_free : free.held = [] := rfl
@[simp] theorem held_holding (item : ℕ) : (holding item).held = [item] := rfl
@[simp] theorem held_running (item : ℕ) : (running item).held = [] := rfl
@[simp] theorem unfinished_free : free.unfinished = [] := rfl
@[simp] theorem unfinished_holding (item : ℕ) : (holding item).unfinished = [] := rfl
@[simp] theorem unfinished_running (item : ℕ) : (running item).unfinished = [item] := rfl

theorem mem_held {st : Stage} {item : ℕ} : item ∈ st.held ↔ st = holding item := by
  cases st <;> simp only [held, List.mem_singleton, List.not_mem_nil, reduceCtorEq, holding.injEq,
    eq_comm]

theorem mem_unfinished {st : Stage} {item : ℕ} : item ∈ st.unfinished ↔ st = running item := by
  cases st <;> simp only [unfinished, List.mem_singleton, List.not_mem_nil, reduceCtorEq,
    running.injEq, eq_comm]

end Stage

/-- The queue with its histories. Items are numbered in the order in which they are put. -/
structure WorkQueue (W : Type*) where
  queue : List ℕ
  closed : Bool
  issued : ℕ
  taken : List ℕ
  started : List (W × ℕ)
  finished : List ℕ
  stage : W → Stage

namespace WorkQueue

variable {W : Type*} [DecidableEq W]

/-- What can happen to the queue in one move. -/
inductive Move (q : WorkQueue W) : WorkQueue W → Prop
  | stay : q.Move q
  | put : q.Move { q with queue := q.queue ++ [q.issued], issued := q.issued + 1 }
  | close : q.Move { q with closed := true }
  | take (w : W) (item : ℕ) (rest : List ℕ) (hw : q.stage w = .free)
      (hqueue : q.queue = item :: rest) :
      q.Move { q with
        queue := rest
        taken := q.taken ++ [item]
        stage := Function.update q.stage w (.holding item) }
  | start (w : W) (item : ℕ) (hw : q.stage w = .holding item) :
      q.Move { q with
        started := q.started ++ [(w, item)]
        stage := Function.update q.stage w (.running item) }
  | finish (w : W) (item : ℕ) (hw : q.stage w = .running item) :
      q.Move { q with
        finished := q.finished ++ [item]
        stage := Function.update q.stage w .free }
  | leave (w : W) (hw : q.stage w = .free) (hclosed : q.closed = true) (hqueue : q.queue = []) :
      q.Move { q with stage := Function.update q.stage w .gone }

/-- Nobody leaves before the queue is closed and drained. -/
def Settled (q : WorkQueue W) : Prop :=
  ∀ w, q.stage w = .gone → q.closed = true ∧ q.queue = []

omit [DecidableEq W] in
theorem settled_of_no_gone {q : WorkQueue W} (h : ∀ w, q.stage w ≠ .gone) : q.Settled :=
  fun w hw => absurd hw (h w)

theorem gone_of_update_eq_gone {stage : W → Stage} {v w : W} {st : Stage}
    (hv : Function.update stage w st v = .gone) (hst : st ≠ .gone) : stage v = .gone := by
  by_cases hvw : v = w
  · rw [hvw, Function.update_self] at hv
    exact absurd hv hst
  · rwa [Function.update_of_ne hvw] at hv

/-- `Settled` is kept as long as nothing is put into a closed queue. -/
theorem Settled.move {q q' : WorkQueue W} (h : q.Settled) (hmove : q.Move q')
    (hput : q.closed = true → q'.issued = q.issued) : q'.Settled := by
  intro v hv
  cases hmove with
  | stay => exact h v hv
  | put =>
    obtain ⟨hclosed, -⟩ := h v hv
    exact absurd (hput hclosed) (Nat.succ_ne_self _)
  | close => exact ⟨rfl, (h v hv).2⟩
  | take w item rest hw hqueue =>
    obtain ⟨-, hempty⟩ := h v (gone_of_update_eq_gone hv nofun)
    rw [hqueue] at hempty
    cases hempty
  | start w item hw => exact h v (gone_of_update_eq_gone hv nofun)
  | finish w item hw => exact h v (gone_of_update_eq_gone hv nofun)
  | leave w hw hclosed hqueue => exact ⟨hclosed, hqueue⟩

/-- The items that one worker has started, in its order. -/
def startedBy (started : List (W × ℕ)) (w : W) : List ℕ :=
  (started.filter (·.1 = w)).map Prod.snd

theorem startedBy_append_self (started : List (W × ℕ)) (w : W) (item : ℕ) :
    startedBy (started ++ [(w, item)]) w = startedBy started w ++ [item] := by
  simp only [startedBy, List.filter_append, List.filter_cons, decide_true, ↓reduceIte,
    List.filter_nil, List.map_append, List.map_cons, List.map_nil]

theorem startedBy_append_of_ne (started : List (W × ℕ)) {w v : W} (hvw : v ≠ w) (item : ℕ) :
    startedBy (started ++ [(w, item)]) v = startedBy started v := by
  simp only [startedBy, List.filter_append, List.filter_cons, hvw.symm, decide_false,
    Bool.false_eq_true, ↓reduceIte, List.filter_nil, List.append_nil]

/-- A worker that moves and has the same items as before changes nobody's items. -/
theorem items_update_of_eq (f : Stage → List ℕ) {stage : W → Stage} {w : W} {st : Stage}
    (h : f st = f (stage w)) (v : W) : f (Function.update stage w st v) = f (stage v) := by
  by_cases hvw : v = w
  · rw [hvw, Function.update_self, h]
  · rw [Function.update_of_ne hvw]

/-- Each worker starts its items in the order in which they were taken. -/
def InOrder (q : WorkQueue W) : Prop :=
  ∀ w, (startedBy q.started w ++ (q.stage w).held).Sublist q.taken

theorem InOrder.move {q q' : WorkQueue W} (h : q.InOrder) (hmove : q.Move q') : q'.InOrder := by
  intro v
  have hv := h v
  cases hmove with
  | stay | put | close => exact hv
  | take w item rest hw hqueue =>
    by_cases hvw : v = w
    · subst hvw
      rw [hw, Stage.held_free, List.append_nil] at hv
      simpa only [Function.update_self, Stage.held_holding] using
        hv.append (List.Sublist.refl [item])
    · simpa only [Function.update_of_ne hvw] using hv.trans (List.sublist_append_left _ [item])
  | start w item hw =>
    -- the item that `w` holds becomes the last that it has started
    by_cases hvw : v = w
    · subst hvw
      rw [hw, Stage.held_holding] at hv
      simpa only [startedBy_append_self, Function.update_self, Stage.held_running,
        List.append_nil] using hv
    · simpa only [startedBy_append_of_ne _ hvw, Function.update_of_ne hvw] using hv
  | finish w item hw =>
    have hheld : (Function.update q.stage w .free v).held = (q.stage v).held :=
      items_update_of_eq Stage.held (by rw [hw]; rfl) v
    simpa only [hheld] using hv
  | leave w hw hclosed hqueue =>
    have hheld : (Function.update q.stage w .gone v).held = (q.stage v).held :=
      items_update_of_eq Stage.held (by rw [hw]; rfl) v
    simpa only [hheld] using hv

section Accounting

variable [Fintype W]

/-- When one summand changes, the sum changes by it. -/
theorem sum_update_add {M : Type*} [AddCommMonoid M] (f : W → M) (w : W) (x : M) :
    (∑ v, Function.update f w x v) + f w = (∑ v, f v) + x := by
  rw [← Finset.add_sum_erase _ (Function.update f w x) (Finset.mem_univ w),
    ← Finset.add_sum_erase _ f (Finset.mem_univ w), Function.update_self]
  have hrest : ∑ v ∈ Finset.univ.erase w, Function.update f w x v =
      ∑ v ∈ Finset.univ.erase w, f v :=
    Finset.sum_congr rfl fun v hv => Function.update_of_ne (Finset.ne_of_mem_erase hv) x f
  rw [hrest, add_comm x, add_assoc, add_comm x, ← add_assoc, add_comm (f w)]

/-- What all workers have of one kind of item. -/
def itemsOf (f : Stage → List ℕ) (stage : W → Stage) : Multiset ℕ := ∑ w, (f (stage w) : Multiset ℕ)

/-- The items of all workers follow the one worker that moves. -/
theorem itemsOf_update (f : Stage → List ℕ) (stage : W → Stage) (w : W) (st : Stage) :
    itemsOf f (Function.update stage w st) + f (stage w) = itemsOf f stage + f st := by
  have hupdate : (fun v => (f (Function.update stage w st v) : Multiset ℕ)) =
      Function.update (fun v => (f (stage v) : Multiset ℕ)) w (f st) :=
    Function.comp_update (fun s => (f s : Multiset ℕ)) stage w st
  rw [itemsOf, itemsOf, ← sum_update_add (fun v => (f (stage v) : Multiset ℕ)) w (f st), ← hupdate]

theorem itemsOf_update_of_eq (f : Stage → List ℕ) {stage : W → Stage} {w : W} {st : Stage}
    (h : f st = f (stage w)) : itemsOf f (Function.update stage w st) = itemsOf f stage :=
  Finset.sum_congr rfl fun v _ => congrArg _ (items_update_of_eq f h v)

omit [DecidableEq W] in
theorem mem_itemsOf {f : Stage → List ℕ} {stage : W → Stage} {item : ℕ} :
    item ∈ itemsOf f stage ↔ ∃ w, item ∈ f (stage w) := by
  simp only [itemsOf, Multiset.mem_sum, Finset.mem_univ, true_and, Multiset.mem_coe]

/-- Every item is in exactly one place. -/
structure Accounted (q : WorkQueue W) : Prop where
  taken_queue : q.taken ++ q.queue = List.range q.issued
  taken_eq : (q.taken : Multiset ℕ) =
    (q.started.map Prod.snd : List ℕ) + itemsOf Stage.held q.stage
  started_eq : ((q.started.map Prod.snd : List ℕ) : Multiset ℕ) =
    q.finished + itemsOf Stage.unfinished q.stage

theorem Accounted.move {q q' : WorkQueue W} (h : q.Accounted) (hmove : q.Move q') :
    q'.Accounted := by
  obtain ⟨hqueue', htaken, hstarted⟩ := h
  cases hmove with
  | stay | close => exact ⟨hqueue', htaken, hstarted⟩
  | put =>
    refine ⟨?_, htaken, hstarted⟩
    rw [← List.append_assoc, hqueue', List.range_succ]
  -- from the queue to the items held
  | take w item rest hw hqueue =>
    have hheld := itemsOf_update Stage.held q.stage w (.holding item)
    have hunfinished : itemsOf Stage.unfinished (Function.update q.stage w (.holding item)) =
        itemsOf Stage.unfinished q.stage := itemsOf_update_of_eq _ (by rw [hw]; rfl)
    rw [hw, Stage.held_free, Stage.held_holding, Multiset.coe_nil, add_zero] at hheld
    refine ⟨?_, ?_, ?_⟩
    · rw [← hqueue', hqueue, List.append_assoc, List.singleton_append]
    · rw [hheld, ← Multiset.coe_add, htaken, add_assoc]
    · rw [hunfinished, hstarted]
  -- from the items held to the unfinished ones
  | start w item hw =>
    have hheld := itemsOf_update Stage.held q.stage w (.running item)
    have hunfinished := itemsOf_update Stage.unfinished q.stage w (.running item)
    rw [hw, Stage.held_holding, Stage.held_running, Multiset.coe_nil, add_zero] at hheld
    rw [hw, Stage.unfinished_holding, Stage.unfinished_running, Multiset.coe_nil,
      add_zero] at hunfinished
    have hsnd : ((q.started ++ [(w, item)]).map Prod.snd : List ℕ) =
        q.started.map Prod.snd ++ [item] := List.map_append
    refine ⟨hqueue', ?_, ?_⟩
    · rw [htaken, ← hheld, hsnd, ← Multiset.coe_add, add_assoc, add_comm (itemsOf _ _)]
    · rw [hunfinished, hsnd, ← Multiset.coe_add, hstarted, add_assoc]
  -- from the unfinished items to the finished ones
  | finish w item hw =>
    have hheld : itemsOf Stage.held (Function.update q.stage w .free) =
        itemsOf Stage.held q.stage := itemsOf_update_of_eq _ (by rw [hw]; rfl)
    have hunfinished := itemsOf_update Stage.unfinished q.stage w .free
    rw [hw, Stage.unfinished_running, Stage.unfinished_free, Multiset.coe_nil,
      add_zero] at hunfinished
    refine ⟨hqueue', ?_, ?_⟩
    · rw [hheld, htaken]
    · rw [hstarted, ← hunfinished, ← Multiset.coe_add, add_assoc, add_comm (itemsOf _ _)]
  -- a worker without an item leaves
  | leave w hw hclosed hqueue =>
    have hsame (f : Stage → List ℕ) (hf : f .gone = f .free) :
        itemsOf f (Function.update q.stage w .gone) = itemsOf f q.stage :=
      itemsOf_update_of_eq f (by rw [hw, hf])
    exact ⟨hqueue', by rw [hsame _ rfl, htaken], by rw [hsame _ rfl, hstarted]⟩

namespace Accounted

omit [DecidableEq W]

variable {q : WorkQueue W} (h : q.Accounted)
include h

theorem taken_nodup : q.taken.Nodup := by
  have hrange : (q.taken ++ q.queue).Nodup := by
    rw [h.taken_queue]
    exact List.nodup_range
  exact hrange.of_append_left

/-- No item is started twice. -/
theorem started_nodup : (q.started.map Prod.snd).Nodup := by
  have htaken : (q.taken : Multiset ℕ).Nodup := Multiset.coe_nodup.mpr h.taken_nodup
  rw [h.taken_eq] at htaken
  exact Multiset.coe_nodup.mp (Multiset.nodup_of_le (Multiset.le_add_right _ _) htaken)

/-- The items are taken in the order in which they were put. -/
theorem taken_eq_range : q.taken = List.range q.taken.length := by
  have hprefix : q.taken <+: List.range q.issued := ⟨q.queue, h.taken_queue⟩
  rw [List.prefix_iff_eq_take.mp hprefix, List.take_range, List.length_range]

/-- An item that has been taken is finished unless some worker still has it. -/
theorem mem_finished_iff {item : ℕ} (htaken : item ∈ q.taken) :
    item ∈ q.finished ↔ ∀ w, q.stage w ≠ .holding item ∧ q.stage w ≠ .running item := by
  have heq : (q.taken : Multiset ℕ) =
      q.finished + (itemsOf Stage.unfinished q.stage + itemsOf Stage.held q.stage) := by
    rw [h.taken_eq, h.started_eq, add_assoc]
  have hnodup : (q.taken : Multiset ℕ).Nodup := Multiset.coe_nodup.mpr h.taken_nodup
  rw [heq, Multiset.nodup_add] at hnodup
  constructor
  · intro hfin w
    have hnot := Multiset.disjoint_left.mp hnodup.2.2 (Multiset.mem_coe.mpr hfin)
    rw [Multiset.mem_add, mem_itemsOf, mem_itemsOf] at hnot
    exact ⟨fun hw => hnot (.inr ⟨w, Stage.mem_held.mpr hw⟩),
      fun hw => hnot (.inl ⟨w, Stage.mem_unfinished.mpr hw⟩)⟩
  · intro hnone
    have hmem : item ∈ (q.taken : Multiset ℕ) := Multiset.mem_coe.mpr htaken
    rw [heq, Multiset.mem_add, Multiset.mem_add, mem_itemsOf, mem_itemsOf] at hmem
    rcases hmem with hfin | ⟨w, hw⟩ | ⟨w, hw⟩
    · exact Multiset.mem_coe.mp hfin
    · exact absurd (Stage.mem_unfinished.mp hw) (hnone w).2
    · exact absurd (Stage.mem_held.mp hw) (hnone w).1

/-- When the queue is drained and no worker has an item, every item that was put is finished. -/
theorem finished_perm (hqueue : q.queue = [])
    (hstage : ∀ w, (q.stage w).held = [] ∧ (q.stage w).unfinished = []) :
    q.finished.Perm (List.range q.issued) := by
  have hheld : itemsOf Stage.held q.stage = 0 :=
    Finset.sum_eq_zero fun w _ => by rw [(hstage w).1, Multiset.coe_nil]
  have hunfinished : itemsOf Stage.unfinished q.stage = 0 :=
    Finset.sum_eq_zero fun w _ => by rw [(hstage w).2, Multiset.coe_nil]
  have htaken : q.taken = List.range q.issued := by
    rw [← h.taken_queue, hqueue, List.append_nil]
  apply Multiset.coe_eq_coe.mp
  rw [← htaken, h.taken_eq, h.started_eq, hheld, hunfinished, add_zero, add_zero]

end Accounted

/-- Each worker starts its items in the order in which they were put. -/
theorem InOrder.startedBy_pairwise {q : WorkQueue W} (h : q.InOrder) (hq : q.Accounted) (w : W) :
    (startedBy q.started w).Pairwise (· < ·) := by
  have htaken : q.taken.Pairwise (· < ·) := by
    rw [hq.taken_eq_range]
    exact List.pairwise_lt_range
  exact htaken.sublist ((List.sublist_append_left _ _).trans (h w))

/-- A single worker starts all items in the order in which they were put. -/
theorem InOrder.started_pairwise [Subsingleton W] {q : WorkQueue W} (h : q.InOrder)
    (hq : q.Accounted) : (q.started.map Prod.snd).Pairwise (· < ·) := by
  cases hstarted : q.started with
  | nil => exact List.Pairwise.nil
  | cons p ps =>
    have hall : startedBy q.started p.1 = q.started.map Prod.snd :=
      congrArg _ (List.filter_eq_self.mpr fun r _ => decide_eq_true (Subsingleton.elim r.1 p.1))
    rw [← hstarted, ← hall]
    exact h.startedBy_pairwise hq p.1

end Accounting

end WorkQueue
