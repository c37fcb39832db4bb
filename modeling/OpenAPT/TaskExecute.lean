import OpenAPT.Task

/-! What `Execute` leaves of the description of a task, and the items the one of a `LoopTask` gets
to. -/
namespace OpenAPT

open KeyedList

namespace TaskRun

variable {σ ι α : Type*} {r r₁ r₂ : TaskRun σ}

/-! ### The description -/

/-- The task of the second run is the one of the first, but for the stop flag. -/
def SameButFlag (r r' : TaskRun σ) : Prop := ∃ flag, r'.task = { r.task with stop_flag_ := flag }

theorem SameButFlag.refl (r : TaskRun σ) : SameButFlag r r := ⟨r.task.stop_flag_, rfl⟩

theorem SameButFlag.trans (h₁ : SameButFlag r r₁) (h₂ : SameButFlag r₁ r₂) : SameButFlag r r₂ := by
  obtain ⟨flag₁, h₁⟩ := h₁
  obtain ⟨flag₂, h₂⟩ := h₂
  refine ⟨flag₂, ?_⟩
  rw [h₂, h₁]

theorem SameButFlag.base (h : SameButFlag r r₁) :
    r₁.task.toBasicTask.ToJson = r.task.toBasicTask.ToJson := by
  obtain ⟨flag, h⟩ := h
  rw [h]
  rfl

theorem SameButFlag.toJson (h : SameButFlag r r₁) : r₁.task.ToJson = r.task.ToJson := by
  obtain ⟨flag, h⟩ := h
  rw [h]
  rfl

theorem sameButFlag_foldl (writes : List Bool) (r : TaskRun σ) :
    SameButFlag r (writes.foldl set_stop_flag r) := by
  induction writes generalizing r with
  | nil => exact SameButFlag.refl r
  | cons flag writes ih =>
    have hwrite : SameButFlag r (r.set_stop_flag flag) := ⟨flag, rfl⟩
    exact hwrite.trans (ih _)

/-- A user function gets to the stop flag of the task only. -/
theorem sameButFlag_of_invoke {name : UserFunction} {f : StdFunction σ ι α} {x : ι}
    {result : Except StdException α} (h : invoke name f x r = (result, r₁)) :
    SameButFlag r r₁ := by
  have hcall : SameButFlag r (invoke name f x r).2 := by
    cases f with
    | none => exact SameButFlag.refl r
    | some f => exact sameButFlag_foldl _ (r.record (.invoke name))
  rw [h] at hcall
  exact hcall

theorem sameButFlag_executeItems (item_fn_ : StdFunction σ Json Unit) (items : List Json)
    (r : TaskRun σ) : SameButFlag r (executeItems item_fn_ items r).2 := by
  induction items generalizing r with
  | nil => exact SameButFlag.refl r
  | cons item items ih =>
    rw [executeItems]
    split
    next => exact SameButFlag.refl r
    next =>
      split
      next e r₁ heq => exact sameButFlag_of_invoke heq
      next r₁ heq => exact (sameButFlag_of_invoke heq).trans (ih r₁)

theorem withTypeAndParams_injective {type : Bytes} {params params' : Json}
    {members : List (Bytes × Json)}
    (h : withTypeAndParams type params members = withTypeAndParams type params' members) :
    params = params' := by
  have hfind : ∀ p, (withTypeAndParams type p members).find? (bytes "params") = some p := by
    intro p
    exact find?_insert_self _ _ _
  have hsome : some params = some params' := by rw [← hfind params, h, hfind params']
  exact Option.some.inj hsome

/-- When `Execute` returns, the description is as before. -/
def KeepsDescription (r : TaskRun σ) : Prop :=
  ∀ j, r.Execute.1 = .ok j → r.Execute.2.task.ToJson = r.task.ToJson

/-- A loop task with parameters in which `params_["items"]` adds the member it looks for. -/
def AddsItems : TaskClass σ → Prop
  | .LoopTask _ params_ =>
    params_.find? (bytes "items") = none ∧ (params_ = .null ∨ ∃ o, params_ = .object o)
  | _ => False

theorem toJson_simpleTask {function_ : StdFunction σ Json Json} {params_ returns_ : Json}
    (hself : r.task.self = .SimpleTask function_ params_ returns_) :
    (SimpleTask_Execute function_ params_ r).2.task.ToJson = r.task.ToJson := by
  have htask : r.task.ToJson =
      withTypeAndParams (bytes "simple") params_ r.task.toBasicTask.ToJson := by
    rw [Task.ToJson, hself]
  unfold SimpleTask_Execute
  split
  next => rfl
  next =>
    split
    next e r₁ heq => exact (sameButFlag_of_invoke heq).toJson
    next returns r₁ heq =>
      -- the result is kept in the task, but it is not part of the description
      rw [htask, ← (sameButFlag_of_invoke heq).base]
      rfl

theorem toJson_conditionalTask (condition_fn_ : StdFunction σ Json Bool) (params_ : Json)
    (task_fn_ : StdFunction σ Json Unit) (r : TaskRun σ) :
    (ConditionalTask_Execute condition_fn_ params_ task_fn_ r).2.task.ToJson = r.task.ToJson := by
  unfold ConditionalTask_Execute
  split
  next e r₁ heq => exact (sameButFlag_of_invoke heq).toJson
  next r₁ heq => exact (sameButFlag_of_invoke heq).toJson
  next r₁ heq =>
    have hcondition := sameButFlag_of_invoke heq
    split
    next e r₂ heq₂ => exact (hcondition.trans (sameButFlag_of_invoke heq₂)).toJson
    next r₂ heq₂ => exact (hcondition.trans (sameButFlag_of_invoke heq₂)).toJson

/-- What is left of a loop task is its description with the parameters `operator[]` left. -/
theorem toJson_loopTask {item_fn_ : StdFunction σ Json Unit} {params_ params' : Json}
    (hindex : params_.index (bytes "items") = .ok params') :
    (LoopTask_Execute item_fn_ params_ r).2.task.ToJson =
      withTypeAndParams (bytes "loop") params' r.task.toBasicTask.ToJson := by
  have hitems := sameButFlag_executeItems item_fn_
    ((params'.find? (bytes "items")).getD .null).elements (r.withSelf (.LoopTask item_fn_ params'))
  unfold LoopTask_Execute
  rw [hindex]
  dsimp only
  split
  next e r₁ heq =>
    rw [heq] at hitems
    exact hitems.toJson
  next r₁ heq =>
    rw [heq] at hitems
    exact hitems.toJson

theorem exists_index_iff {j : Json} {key : Bytes} :
    (∃ j', j.index key = .ok j') ↔ j = .null ∨ ∃ o, j = .object o := by
  cases j with
  | null => exact iff_of_true ⟨_, rfl⟩ (Or.inl rfl)
  | object o => exact iff_of_true ⟨_, rfl⟩ (Or.inr ⟨o, rfl⟩)
  | _ => simp [Json.index]

/-- The member that `operator[]` adds is null. -/
theorem find?_index_of_find?_none {j j' : Json} {key : Bytes} (hnone : j.find? key = none)
    (hindex : j.index key = .ok j') : j'.find? key = some .null := by
  cases j with
  | null =>
    obtain rfl := Except.ok.inj hindex
    simp only [Json.find?, find?, ↓reduceIte]
  | object o =>
    obtain rfl := Except.ok.inj hindex
    have ho : find? key o = none := hnone
    simp only [Json.find?, find?_emplace, ho, ↓reduceIte, Option.none_or]
  | _ => cases hindex

/-- A loop task keeps its description exactly when its parameters are not given the member. -/
theorem keepsDescription_loopTask {item_fn_ : StdFunction σ Json Unit} {params_ : Json}
    (hself : r.task.self = .LoopTask item_fn_ params_) :
    KeepsDescription r ↔ ¬ AddsItems r.task.self := by
  have hexecute : r.Execute = LoopTask_Execute item_fn_ params_ (r.record .Execute) := by
    rw [Execute, hself]
  have htask : r.task.ToJson =
      withTypeAndParams (bytes "loop") params_ r.task.toBasicTask.ToJson := by
    rw [Task.ToJson, hself]
  unfold KeepsDescription
  rw [hexecute, hself, htask]
  cases hindex : params_.index (bytes "items") with
  | error e =>
    -- nothing is executed, and `operator[]` would not have thrown on a null or an object
    refine iff_of_true (fun j hj => ?_) (fun hadds => ?_)
    · simp only [LoopTask_Execute, hindex, reduceCtorEq] at hj
    · obtain ⟨params', hok⟩ := exists_index_iff.mpr hadds.2
      rw [hindex] at hok
      cases hok
  | ok params' =>
    rw [toJson_loopTask hindex]
    cases hfind : params_.find? (bytes "items") with
    | some items =>
      have hsame : params' = params_ :=
        Except.ok.inj (hindex.symm.trans (Json.index_of_find?_some hfind))
      refine iff_of_true (fun j _ => ?_) (fun hadds => ?_)
      · rw [hsame]
        rfl
      · have hnone := hadds.1
        rw [hfind] at hnone
        cases hnone
    | none =>
      have hnull := find?_index_of_find?_none hfind hindex
      have hreturns : (LoopTask_Execute item_fn_ params_ (r.record .Execute)).1 =
          .ok statusDone := by
        simp only [LoopTask_Execute, hindex, hnull, Option.getD_some, Json.elements, executeItems]
      refine iff_of_false (fun hkeeps => ?_)
        (not_not_intro ⟨hfind, exists_index_iff.mp ⟨params', hindex⟩⟩)
      have hsame : params' = params_ := withTypeAndParams_injective (hkeeps _ hreturns)
      rw [hsame, hfind] at hnull
      cases hnull

/-- A task keeps its description exactly when it is not a loop task that gets the member `items`
added to its parameters. -/
theorem keepsDescription_iff (r : TaskRun σ) : KeepsDescription r ↔ ¬ AddsItems r.task.self := by
  cases hself : r.task.self with
  | SimpleTask function_ params_ returns_ =>
    refine iff_of_true (fun j _ => ?_) not_false
    rw [Execute, hself]
    exact toJson_simpleTask (r := r.record .Execute) hself
  | ConditionalTask condition_fn_ params_ task_fn_ =>
    refine iff_of_true (fun j _ => ?_) not_false
    rw [Execute, hself]
    exact toJson_conditionalTask condition_fn_ params_ task_fn_ (r.record .Execute)
  | LoopTask item_fn_ params_ =>
    rw [← hself]
    exact keepsDescription_loopTask hself

/-- A loop task without parameters has some after it was executed. -/
theorem loopTask_gets_items :
    ¬ KeepsDescription (init (.LoopTask (some fun _ _ _ => ⟨[], .ok (), ()⟩) .null) none 0 ()) := by
  intro hkeeps
  have hsame := hkeeps statusDone rfl
  have hparams : Json.object [(bytes "items", .null)] = .null := withTypeAndParams_injective hsame
  cases hparams

/-! ### The items of a loop -/

/-- The item function called on one item after the other, whatever the flag is. A call that throws
is the last one. -/
def callItems (item_fn_ : StdFunction σ Json Unit) :
    List Json → TaskRun σ → Except StdException Unit × TaskRun σ
  | [], r => (.ok (), r)
  | item :: items, r =>
    match invoke .item_fn_ item_fn_ (.object [(bytes "item", item)]) r with
    | (.error e, r) => (.error e, r)
    | (.ok (), r) => callItems item_fn_ items r

/-- The calls on the first `n` items are those after which the flag is set for the first time, or,
if there are none, those on all items. -/
structure StopsAfter (item_fn_ : StdFunction σ Json Unit) (items : List Json) (r : TaskRun σ)
    (n : ℕ) : Prop where
  le_length : n ≤ items.length
  clear_before : ∀ m < n, (callItems item_fn_ (items.take m) r).2.task.stop_flag_ = false
  set_after : n < items.length →
    (callItems item_fn_ (items.take n) r).2.task.stop_flag_ = true

section Items

variable {item_fn_ : StdFunction σ Json Unit} {item : Json} {items : List Json}

theorem callItems_cons_of_ok
    (hcall : invoke .item_fn_ item_fn_ (.object [(bytes "item", item)]) r = (.ok (), r₁)) :
    callItems item_fn_ (item :: items) r = callItems item_fn_ items r₁ := by
  rw [callItems, hcall]

theorem callItems_cons_of_error {e : StdException}
    (hcall : invoke .item_fn_ item_fn_ (.object [(bytes "item", item)]) r = (.error e, r₁)) :
    callItems item_fn_ (item :: items) r = (.error e, r₁) := by
  rw [callItems, hcall]

theorem stopsAfter_zero (hflag : r.task.stop_flag_ = true) : StopsAfter item_fn_ items r 0 where
  le_length := Nat.zero_le _
  clear_before m hm := absurd hm (Nat.not_lt_zero m)
  set_after _ := hflag

/-- After a call that returned, the prefix goes on as that of the items that are left. -/
theorem StopsAfter.succ {n : ℕ} (hflag : r.task.stop_flag_ = false)
    (hcall : invoke .item_fn_ item_fn_ (.object [(bytes "item", item)]) r = (.ok (), r₁))
    (h : StopsAfter item_fn_ items r₁ n) : StopsAfter item_fn_ (item :: items) r (n + 1) where
  le_length := Nat.succ_le_succ h.le_length
  clear_before m hm := by
    cases m with
    | zero => exact hflag
    | succ m =>
      rw [List.take_succ_cons, callItems_cons_of_ok hcall]
      exact h.clear_before m (Nat.lt_of_succ_lt_succ hm)
  set_after hn := by
    rw [List.take_succ_cons, callItems_cons_of_ok hcall]
    exact h.set_after (Nat.lt_of_succ_lt_succ hn)

/-- After a call that threw there are no others: the prefix ends there if the flag is set, and
otherwise with the items. -/
theorem exists_stopsAfter_of_error {e : StdException} (items : List Json)
    (hflag : r.task.stop_flag_ = false)
    (hcall : invoke .item_fn_ item_fn_ (.object [(bytes "item", item)]) r = (.error e, r₁)) :
    ∃ n, StopsAfter item_fn_ (item :: items) r (n + 1) := by
  have hthrown : ∀ m, callItems item_fn_ ((item :: items).take (m + 1)) r = (.error e, r₁) := by
    intro m
    rw [List.take_succ_cons, callItems_cons_of_error hcall]
  cases hset : r₁.task.stop_flag_ with
  | true =>
    refine ⟨0, Nat.succ_le_succ (Nat.zero_le _), fun m hm => ?_, fun _ => ?_⟩
    · obtain rfl : m = 0 := by omega
      exact hflag
    · rw [hthrown 0]
      exact hset
  | false =>
    refine ⟨items.length, le_rfl, fun m _ => ?_, fun hn => absurd hn (lt_irrefl _)⟩
    cases m with
    | zero => exact hflag
    | succ m =>
      rw [hthrown m]
      exact hset

/-- The loop makes the calls of the prefix and no others. -/
theorem exists_stopsAfter (item_fn_ : StdFunction σ Json Unit) (items : List Json)
    (r : TaskRun σ) : ∃ n, StopsAfter item_fn_ items r n ∧
      executeItems item_fn_ items r = callItems item_fn_ (items.take n) r := by
  induction items generalizing r with
  | nil =>
    refine ⟨0, ⟨le_rfl, fun m hm => absurd hm (Nat.not_lt_zero m), fun hn => ?_⟩, rfl⟩
    exact absurd hn (Nat.lt_irrefl 0)
  | cons item items ih =>
    cases hflag : r.task.stop_flag_ with
    | true =>
      refine ⟨0, stopsAfter_zero hflag, ?_⟩
      simp only [executeItems, hflag, ↓reduceIte, List.take_zero, callItems]
    | false =>
      rcases hcall : invoke .item_fn_ item_fn_ (.object [(bytes "item", item)]) r with
        ⟨e | ⟨⟩, r₁⟩
      · obtain ⟨n, hn⟩ := exists_stopsAfter_of_error items hflag hcall
        refine ⟨n + 1, hn, ?_⟩
        rw [List.take_succ_cons, callItems_cons_of_error hcall]
        simp only [executeItems, hflag, Bool.false_eq_true, ↓reduceIte, hcall]
      · obtain ⟨n, hn, hitems⟩ := ih r₁
        refine ⟨n + 1, hn.succ hflag hcall, ?_⟩
        rw [List.take_succ_cons, callItems_cons_of_ok hcall, ← hitems]
        simp only [executeItems, hflag, Bool.false_eq_true, ↓reduceIte, hcall]

end Items

/-- `LoopTask::Execute` calls the item function on exactly the items of the shortest prefix after
which the flag is set, and then the task is done; an exception of a call ends it and goes on. -/
theorem loopTask_calls_prefix {item_fn_ : StdFunction σ Json Unit} {params_ : Json}
    {items : List Json} (r : TaskRun σ) (hself : r.task.self = .LoopTask item_fn_ params_)
    (hitems : params_.find? (bytes "items") = some (.array items)) :
    ∃ n, StopsAfter item_fn_ items (r.record .Execute) n ∧
      (∀ r', callItems item_fn_ (items.take n) (r.record .Execute) = (.ok (), r') →
        r.Execute = (.ok statusDone, r'.done) ∧ r.Execute.2.task.done_ = true) ∧
      (∀ e r', callItems item_fn_ (items.take n) (r.record .Execute) = (.error e, r') →
        r.Execute = (.error e, r')) := by
  obtain ⟨n, hn, hcalls⟩ := exists_stopsAfter item_fn_ items (r.record .Execute)
  have hsame : (r.record .Execute).withSelf (.LoopTask item_fn_ params_) = r.record .Execute := by
    rw [← hself]
    rfl
  have hexecute : r.Execute = LoopTask_Execute item_fn_ params_ (r.record .Execute) := by
    rw [Execute, hself]
  refine ⟨n, hn, fun r' hr' => ?_, fun e r' hr' => ?_⟩
  · rw [← hcalls] at hr'
    have hreturns : r.Execute = (.ok statusDone, r'.done) := by
      rw [hexecute]
      simp only [LoopTask_Execute, Json.index_of_find?_some hitems, hitems, Option.getD_some,
        Json.elements, hsame, hr']
    exact ⟨hreturns, by rw [hreturns]; rfl⟩
  · rw [← hcalls] at hr'
    rw [hexecute]
    simp only [LoopTask_Execute, Json.index_of_find?_some hitems, hitems, Option.getD_some,
      Json.elements, hsame, hr']

/-- An item function that sets the stop flag at the first item that is not empty. -/
def stopAtValue : StdFunction Unit Json Unit :=
  some fun j _ _ => ⟨if (j.find? (bytes "item")).all Json.empty then [] else [true], .ok (), ()⟩

def threeItems : List Json := [.null, .boolean true, .null]

def threeItemsTask : TaskRun Unit :=
  init (.LoopTask stopAtValue (.object [(bytes "items", .array threeItems)])) none 0 ()

/-- The loop over three items that stops after the second one. -/
theorem loopTask_calls_prefix_two :
    (callItems stopAtValue (threeItems.take 2) (threeItemsTask.record .Execute)).1 = .ok () ∧
      threeItemsTask.Execute.2.task.done_ = true := by
  have hitems : (Json.object [(bytes "items", .array threeItems)]).find? (bytes "items") =
      some (.array threeItems) := rfl
  obtain ⟨n, hn, hreturns, -⟩ := loopTask_calls_prefix threeItemsTask rfl hitems
  have hset : (callItems stopAtValue (threeItems.take 2)
      (threeItemsTask.record .Execute)).2.task.stop_flag_ = true := by decide
  obtain rfl : n = 2 := by
    rcases Nat.lt_or_ge 2 n with hgt | hle
    · rw [hn.clear_before 2 hgt] at hset
      cases hset
    · have hlength : n < threeItems.length := Nat.lt_of_le_of_lt hle (by decide)
      have hafter := hn.set_after hlength
      rcases (by omega : n = 0 ∨ n = 1 ∨ n = 2) with rfl | rfl | htwo
      · cases hafter
      · cases hafter
      · exact htwo
  exact ⟨rfl, (hreturns _ rfl).2⟩

/-! ### The functions a task holds -/

/-- The functions that `Execute` may call are not empty. -/
def HoldsFunctions : TaskClass σ → Prop
  | .SimpleTask function_ _ _ => function_ ≠ none
  | .ConditionalTask condition_fn_ _ task_fn_ => condition_fn_ ≠ none ∧ task_fn_ ≠ none
  | .LoopTask item_fn_ _ => item_fn_ ≠ none

/-- Some call of the function itself throws the exception. -/
def Throws (f : StdFunction σ ι α) (e : StdException) : Prop :=
  ∃ g, f = some g ∧ ∃ x flag s, (g x flag s).result = .error e

def SomeThrows (e : StdException) : TaskClass σ → Prop
  | .SimpleTask function_ _ _ => Throws function_ e
  | .ConditionalTask condition_fn_ _ task_fn_ => Throws condition_fn_ e ∨ Throws task_fn_ e
  | .LoopTask item_fn_ _ => Throws item_fn_ e

/-- The functions are there, so no `Execute` calls an empty one: a `std::bad_function_call` that
gets out of it is one of a function the task holds. -/
def Runnable (self : TaskClass σ) : Prop :=
  HoldsFunctions self ∧ ∀ r : TaskRun σ, r.task.self = self →
    r.Execute.1 = .error badFunctionCall → SomeThrows badFunctionCall self

theorem throws_of_invoke {name : UserFunction} {f : StdFunction σ ι α} {x : ι} {e : StdException}
    (hf : f ≠ none) (hcall : invoke name f x r = (.error e, r₁)) : Throws f e := by
  cases f with
  | none => exact absurd rfl hf
  | some g => exact ⟨g, rfl, x, _, _, congrArg Prod.fst hcall⟩

theorem throws_of_executeItems {item_fn_ : StdFunction σ Json Unit} {items : List Json}
    {e : StdException} (hf : item_fn_ ≠ none)
    (hitems : executeItems item_fn_ items r = (.error e, r₁)) : Throws item_fn_ e := by
  induction items generalizing r with
  | nil => cases hitems
  | cons item items ih =>
    rw [executeItems] at hitems
    split at hitems
    next => cases hitems
    next =>
      split at hitems
      next e' r' heq =>
        obtain rfl : e' = e := Except.error.inj (congrArg Prod.fst hitems)
        exact throws_of_invoke hf heq
      next => exact ih hitems

/-- An exception of a simple task is one of its function. -/
theorem throws_of_simpleTask {function_ : StdFunction σ Json Json} {params_ : Json}
    {e : StdException} (hf : function_ ≠ none)
    (hthrown : (SimpleTask_Execute function_ params_ r).1 = .error e) : Throws function_ e := by
  unfold SimpleTask_Execute at hthrown
  split at hthrown
  next => cases hthrown
  next =>
    split at hthrown
    next e' r' heq =>
      obtain rfl : e' = e := Except.error.inj hthrown
      exact throws_of_invoke hf heq
    next => cases hthrown

/-- One of a conditional task is one of its two functions. -/
theorem throws_of_conditionalTask {condition_fn_ : StdFunction σ Json Bool} {params_ : Json}
    {task_fn_ : StdFunction σ Json Unit} {e : StdException} (hcondition : condition_fn_ ≠ none)
    (htask : task_fn_ ≠ none)
    (hthrown : (ConditionalTask_Execute condition_fn_ params_ task_fn_ r).1 = .error e) :
    Throws condition_fn_ e ∨ Throws task_fn_ e := by
  unfold ConditionalTask_Execute at hthrown
  split at hthrown
  next e' r' heq =>
    obtain rfl : e' = e := Except.error.inj hthrown
    exact Or.inl (throws_of_invoke hcondition heq)
  next => cases hthrown
  next =>
    split at hthrown
    next e' r' heq =>
      obtain rfl : e' = e := Except.error.inj hthrown
      exact Or.inr (throws_of_invoke htask heq)
    next => cases hthrown

/-- One of a loop task is one of its function, or of `operator[]`. -/
theorem throws_of_loopTask {item_fn_ : StdFunction σ Json Unit} {params_ : Json} {e : StdException}
    (hf : item_fn_ ≠ none) (hindex : params_.index (bytes "items") ≠ .error e)
    (hthrown : (LoopTask_Execute item_fn_ params_ r).1 = .error e) : Throws item_fn_ e := by
  unfold LoopTask_Execute at hthrown
  split at hthrown
  next e' heq =>
    obtain rfl : e' = e := Except.error.inj hthrown
    exact absurd heq hindex
  next =>
    dsimp only at hthrown
    split at hthrown
    next e' r' heq =>
      obtain rfl : e' = e := Except.error.inj hthrown
      exact throws_of_executeItems hf heq
    next => cases hthrown

/-- What `operator[]` throws is not what an empty function does. -/
theorem index_ne_badFunctionCall (j : Json) (key : Bytes) :
    j.index key ≠ .error badFunctionCall := by
  have hhead : ∀ type, (⟨bytes
      "[json.exception.type_error.305] cannot use operator[] with a string argument with " ++
      type⟩ : StdException) ≠ badFunctionCall := by
    intro type heq
    have hfirst := congrArg (fun e : StdException => e.what.head?) heq
    rw [List.head?_append] at hfirst
    have hbracket : (bytes
        "[json.exception.type_error.305] cannot use operator[] with a string argument with "
        ).head? = some 91 := by decide +kernel
    rw [hbracket] at hfirst
    revert hfirst
    simp only [Option.some_or]
    decide
  intro h
  cases j with
  | null => cases h
  | object o => cases h
  | _ => exact hhead _ (Except.error.inj h)

/-- Only a function that is there can throw what an empty one does. -/
theorem runnable_of_holdsFunctions {self : TaskClass σ} (hholds : HoldsFunctions self) :
    Runnable self := by
  refine ⟨hholds, fun r hself hthrown => ?_⟩
  rw [Execute, hself] at hthrown
  cases self with
  | SimpleTask function_ params_ returns_ => exact throws_of_simpleTask hholds hthrown
  | ConditionalTask condition_fn_ params_ task_fn_ =>
    exact throws_of_conditionalTask hholds.1 hholds.2 hthrown
  | LoopTask item_fn_ params_ =>
    exact throws_of_loopTask hholds (index_ne_badFunctionCall params_ _) hthrown

theorem runnable_iff_holdsFunctions {self : TaskClass σ} :
    Runnable self ↔ HoldsFunctions self :=
  ⟨And.left, runnable_of_holdsFunctions⟩

end TaskRun

end OpenAPT
