import Mathlib.Data.List.Find
import OpenAPT.Json

/-! `CommandDispatcher`: handlers in a map keyed by the Djb2 hash of the command name. The abstract
dispatcher is keyed by the name itself, and the two agree exactly where no other name that was
registered later hides a handler behind the same hash. -/
namespace OpenAPT

/-- The loop of `Djb2Hash` in `std::size_t` arithmetic. The end of the list is the terminator of
the C string, and a zero byte inside it ends the loop as well. -/
def djb2Loop : UInt64 → Bytes → UInt64
  | hash, [] => hash
  | hash, c :: str => if c = 0 then hash else djb2Loop (((hash <<< 5) + hash) + c.toUInt64) str

def djb2Hash (str : Bytes) : UInt64 := djb2Loop 5381 str

theorem djb2Loop_cStr (hash : UInt64) (str : Bytes) :
    djb2Loop hash (cStr str) = djb2Loop hash str := by
  induction str generalizing hash with
  | nil => rfl
  | cons c str ih =>
    by_cases hc : c = 0
    · simp only [cStr, List.takeWhile_cons, hc, ne_eq, not_true_eq_false, decide_false,
        Bool.false_eq_true, ↓reduceIte, djb2Loop]
    · have hcons : cStr (c :: str) = c :: cStr str := by
        simp only [cStr, List.takeWhile_cons, ne_eq, hc, not_false_eq_true, decide_true, ↓reduceIte]
      rw [hcons, djb2Loop, djb2Loop, if_neg hc, if_neg hc, ih]

/-- Names that differ only after a zero byte have one hash. -/
theorem djb2Hash_cStr (str : Bytes) : djb2Hash (cStr str) = djb2Hash str :=
  djb2Loop_cStr 5381 str

/-- How a call of a handler ends: it returns, throws a `std::exception` with some `what()`, or
throws something else. -/
inductive Outcome
  | returned
  | threw (what : Bytes)
  | threwOther
  deriving DecidableEq

/-- The handler calls made, each with its argument, and how the last of them ended. -/
structure Dispatched (H : Type*) where
  ran : List (H × Json)
  outcome : Outcome

/-- `H` is the type of the bound member functions, the `HandlerFunc`s. -/
structure CommandDispatcher (H : Type*) where
  handlers_ : List (UInt64 × H)

namespace CommandDispatcher

variable {H : Type*}

def registerHandler (d : CommandDispatcher H) (name : Bytes) (handler : H) : CommandDispatcher H :=
  ⟨KeyedList.insert (djb2Hash name) handler d.handlers_⟩

def hasHandler (d : CommandDispatcher H) (name : Bytes) : Bool :=
  (KeyedList.find? (djb2Hash name) d.handlers_).isSome

/-- `Dispatch`; `call` says how a handler ends on an argument. An unknown name is only logged. -/
def dispatch (call : H → Json → Outcome) (d : CommandDispatcher H) (name : Bytes) (data : Json) :
    Dispatched H :=
  match KeyedList.find? (djb2Hash name) d.handlers_ with
  | some handler => ⟨[(handler, data)], call handler data⟩
  | none => ⟨[], .returned⟩

/-- The dispatcher after a sequence of `RegisterHandler` calls. -/
def registered (regs : List (Bytes × H)) : CommandDispatcher H :=
  regs.foldl (fun d r => d.registerHandler r.1 r.2) ⟨[]⟩

/-- The handler of the last registration whose name meets `p`. -/
def lastRegistered (p : Bytes → Prop) [DecidablePred p] (regs : List (Bytes × H)) : Option H :=
  (regs.reverse.find? fun r => p r.1).map Prod.snd

theorem lastRegistered_concat (p : Bytes → Prop) [DecidablePred p] (regs : List (Bytes × H))
    (r : Bytes × H) :
    lastRegistered p (regs ++ [r]) = if p r.1 then some r.2 else lastRegistered p regs := by
  simp only [lastRegistered, List.reverse_append, List.reverse_singleton, List.singleton_append,
    List.find?_cons]
  by_cases h : p r.1
  · simp only [h, decide_true, ↓reduceIte, Option.map_some]
  · simp only [h, decide_false, ↓reduceIte]

theorem lastRegistered_isSome (p : Bytes → Prop) [DecidablePred p] (regs : List (Bytes × H)) :
    (lastRegistered p regs).isSome ↔ ∃ r ∈ regs, p r.1 := by
  simp only [lastRegistered, Option.isSome_map, List.find?_isSome, List.mem_reverse,
    decide_eq_true_eq]

theorem registered_concat (regs : List (Bytes × H)) (r : Bytes × H) :
    registered (regs ++ [r]) = (registered regs).registerHandler r.1 r.2 := by
  simp only [registered, List.foldl_append, List.foldl_cons, List.foldl_nil]

/-- The slot of a hash holds the handler of the last registration with that hash. -/
theorem find?_registered (hash : UInt64) (regs : List (Bytes × H)) :
    KeyedList.find? hash (registered regs).handlers_ =
      lastRegistered (fun name => djb2Hash name = hash) regs := by
  induction regs using List.reverseRecOn with
  | nil => rfl
  | append_singleton regs r ih =>
    rw [registered_concat, lastRegistered_concat, registerHandler, KeyedList.find?_insert, ih]
    simp only [eq_comm]

theorem hasHandler_registered (regs : List (Bytes × H)) (name : Bytes) :
    (registered regs).hasHandler name ↔ ∃ r ∈ regs, djb2Hash r.1 = djb2Hash name := by
  rw [hasHandler, find?_registered, lastRegistered_isSome]

theorem dispatch_ran (call : H → Json → Outcome) (regs : List (Bytes × H)) (name : Bytes)
    (data : Json) :
    (dispatch call (registered regs) name data).ran =
      (lastRegistered (fun n => djb2Hash n = djb2Hash name) regs).toList.map (·, data) := by
  rw [dispatch, find?_registered]
  cases lastRegistered (fun n => djb2Hash n = djb2Hash name) regs <;> rfl

/-- The specification at one name: the dispatcher is a map keyed by the name. -/
def NameKeyed (call : H → Json → Outcome) (regs : List (Bytes × H)) (name : Bytes) : Prop :=
  ((registered regs).hasHandler name = true ↔ name ∈ regs.map Prod.fst) ∧
  ∀ data : Json, (dispatch call (registered regs) name data).ran =
    (lastRegistered (· = name) regs).toList.map (·, data)

theorem nameKeyed_of_lastRegistered_eq (call : H → Json → Outcome) {regs : List (Bytes × H)}
    {name : Bytes} (h : lastRegistered (fun n => djb2Hash n = djb2Hash name) regs =
      lastRegistered (· = name) regs) : NameKeyed call regs name := by
  refine ⟨?_, fun data => by rw [dispatch_ran, h]⟩
  rw [hasHandler_registered, ← lastRegistered_isSome fun n => djb2Hash n = djb2Hash name, h,
    lastRegistered_isSome, List.mem_map]

/-- The dispatcher keeps to the specification at a name exactly when the last registration with the
hash of the name gave the handler that the last registration of the name itself gave. -/
theorem nameKeyed_iff_hash_separates (call : H → Json → Outcome) (regs : List (Bytes × H))
    (name : Bytes) :
    NameKeyed call regs name ↔
      lastRegistered (fun n => djb2Hash n = djb2Hash name) regs =
        lastRegistered (· = name) regs := by
  constructor
  · rintro ⟨-, hrun⟩
    have h := hrun .null
    rw [dispatch_ran] at h
    have hinj : Function.Injective fun handler : H => (handler, Json.null) :=
      fun _ _ heq => (Prod.mk.inj heq).1
    have htoList := List.map_injective_iff.mpr hinj h
    apply Option.ext
    intro handler
    rw [← Option.mem_toList, htoList, Option.mem_toList]
  · exact nameKeyed_of_lastRegistered_eq call

/-- Two commands that share a hash: the second name was never registered, yet it is found. -/
theorem nameKeyed_fails_on_collision :
    ¬ NameKeyed (fun _ _ => .returned) [(bytes "RunDeviceTask", ())] (bytes "RunDeviceTatJ") := by
  intro h
  have hmem := h.1.mp (by decide)
  exact absurd hmem (by decide)

/-- Names whose hash no other registered name has are safe. -/
theorem nameKeyed_of_no_collision (call : H → Json → Outcome) {regs : List (Bytes × H)}
    {name : Bytes} (h : ∀ r ∈ regs, djb2Hash r.1 = djb2Hash name → r.1 = name) :
    NameKeyed call regs name := by
  apply nameKeyed_of_lastRegistered_eq
  have hsame : ∀ r ∈ regs.reverse,
      decide (djb2Hash r.1 = djb2Hash name) = decide (r.1 = name) := by
    intro r hr
    have hiff : djb2Hash r.1 = djb2Hash name ↔ r.1 = name :=
      ⟨h r (List.mem_reverse.mp hr), fun he => he ▸ rfl⟩
    exact decide_eq_decide.mpr hiff
  simp only [lastRegistered]
  exact congrArg (Option.map Prod.snd) (List.find?_congr hsame)

end CommandDispatcher

end OpenAPT
