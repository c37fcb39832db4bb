import OpenAPT.Bytes
import OpenAPT.Lib.EventMachine
import OpenAPT.Lib.JsonText
import OpenAPT.Lib.KeyedList

/-! `AchievementList` and its file, as texts. -/
namespace OpenAPT
open JsonText (Value Dialect)

structure Achievement where
  m_name : Bytes
  m_description : Bytes
  m_isCompleted : Bool
  deriving DecidableEq

namespace Achievement

def markAsCompleted (a : Achievement) : Achievement := { a with m_isCompleted := true }

/-- The members of an object as a `std::map`: in key order, the last of equal keys. -/
def asMap (members : List (Bytes × Value)) : List (Bytes × Value) :=
  members.foldl (fun m e => KeyedList.insert e.1 e.2 m) []

def to_json (a : Achievement) : Value :=
  .object (asMap [(bytes "name", .string a.m_name), (bytes "description", .string a.m_description),
    (bytes "isCompleted", .boolean a.m_isCompleted)])

/-- `get<std::string>()`, where it does not throw. -/
def getString : Value → Option Bytes
  | .string s => some s
  | _ => none

def getBool : Value → Option Bool
  | .boolean b => some b
  | _ => none

/-- `none` where an exception is thrown or a member is missing. -/
def from_json : Value → Option Achievement
  | .object members => do
    let m_name ← (KeyedList.find? (bytes "name") (asMap members)).bind getString
    let m_description ← (KeyedList.find? (bytes "description") (asMap members)).bind getString
    let m_isCompleted ← (KeyedList.find? (bytes "isCompleted") (asMap members)).bind getBool
    some ⟨m_name, m_description, m_isCompleted⟩
  | _ => none

/-- Its texts are valid UTF-8, so that `dump` does not throw on it. -/
def Valid (a : Achievement) : Prop :=
  validUtf8 a.m_name = true ∧ validUtf8 a.m_description = true

instance (a : Achievement) : Decidable a.Valid := inferInstanceAs (Decidable (_ ∧ _))

end Achievement

/-- A list with the objects made so far, which a `shared_ptr` is an index of, and the text of the
file, `none` where there is no file. -/
structure AchievementList where
  heap : List Achievement
  m_achievements : List ℕ
  file : Option Bytes

/-- The calls, and the making of an object outside the list. -/
inductive AchievementCall
  | made (a : Achievement)
  | addAchievement (achievement : ℕ)
  | removeAchievementByName (name : Bytes)
  | modifyAchievementByName (name : Bytes) (achievement : ℕ)
  | completeAchievementByName (name : Bytes)

namespace AchievementList
open Achievement EventMachine

/-- The achievements of the list, in order. -/
def contents (l : AchievementList) : List Achievement := l.m_achievements.filterMap (l.heap[·]?)

/-- The `json` of `writeToFile`: `emplace_back` makes the null an array. -/
def toJson : List Achievement → Value
  | [] => .null
  | as => .array (as.map to_json)

/-- `std::setw(4) << j << std::endl`. -/
def fileText (as : List Achievement) : Bytes := JsonText.write 4 0 (toJson as) ++ [0x0A]

/-- The file is writable; `none` where `dump` throws. -/
def writeToFile (l : AchievementList) : Option AchievementList :=
  if ∀ a ∈ l.contents, a.Valid then some { l with file := some (fileText l.contents) } else none

/-- The first achievement of the name. -/
def findByName (l : AchievementList) (name : Bytes) : Option ℕ :=
  l.m_achievements.findIdx? fun p => l.heap[p]?.any fun a => a.m_name = name

/-- The state after a call that returns. -/
def step (l : AchievementList) : AchievementCall → Option AchievementList
  | .made a => some { l with heap := l.heap ++ [a] }
  | .addAchievement p =>
    if p < l.heap.length then
      writeToFile { l with m_achievements := l.m_achievements ++ [p] }
    else none
  | .removeAchievementByName name =>
    match l.findByName name with
    | some i => writeToFile { l with m_achievements := l.m_achievements.eraseIdx i }
    | none => some l
  | .modifyAchievementByName name p =>
    if p < l.heap.length then
      match l.findByName name with
      | some i => writeToFile { l with m_achievements := l.m_achievements.set i p }
      | none => some l
    else none
  | .completeAchievementByName name =>
    match l.findByName name with
    | some i =>
      writeToFile { l with heap := l.heap.modify (l.m_achievements.getD i 0) markAsCompleted }
    | none => some l

/-- The byte order mark that the reader skips. -/
def skipBom (text : Bytes) : Option Bytes :=
  match text with
  | 0xEF :: 0xBB :: 0xBF :: rest => some rest
  | 0xEF :: _ => none
  | _ => some text

/-- What `begin(j)` to `end(j)` go through. -/
def elements : Value → List Value
  | .null => []
  | .array a => a
  | .object members => (asMap members).map Prod.snd
  | v => [v]

section
variable (finite : Bytes → Bool)

/-- The JSON reader takes valid UTF-8 and the numbers that a binary64 can hold. -/
def dialect : Dialect := ⟨validUtf8, finite⟩

/-- The achievements of a file, `none` where the constructor throws. -/
def readFromFile (file : Option Bytes) : Option (List Achievement) := do
  let text ← file
  let text ← skipBom text
  let (j, _) ← JsonText.read (dialect finite) text
  (elements j).mapM from_json

/-- The constructor, with the objects that are there before it. -/
def construct (heap : List Achievement) (file : Option Bytes) : Option AchievementList :=
  (readFromFile finite file).map fun as =>
    ⟨heap ++ as, List.range' heap.length as.length, file⟩

end

theorem to_json_eq (a : Achievement) : a.to_json =
    .object [(bytes "description", .string a.m_description),
      (bytes "isCompleted", .boolean a.m_isCompleted), (bytes "name", .string a.m_name)] := rfl

theorem from_json_to_json (a : Achievement) : from_json a.to_json = some a := by
  rw [to_json_eq]
  rfl

theorem mapM_from_json (as : List Achievement) : (as.map to_json).mapM from_json = some as := by
  induction as with
  | nil => rfl
  | cons a as ih =>
    rw [List.map_cons, List.mapM_cons, from_json_to_json, ih]
    rfl

section
variable {finite : Bytes → Bool}

theorem written_to_json {a : Achievement} (h : a.Valid) :
    JsonText.Written (dialect finite) a.to_json := by
  have hdescription : validUtf8 (bytes "description") = true := by decide
  have hcompleted : validUtf8 (bytes "isCompleted") = true := by decide
  have hname : validUtf8 (bytes "name") = true := by decide
  rw [to_json_eq]
  apply JsonText.Written.object
  · simp only [List.forall_mem_cons, dialect, hdescription, hcompleted, hname, List.not_mem_nil,
      false_imp_iff, implies_true, and_self]
  · simp only [List.forall_mem_cons, List.not_mem_nil, false_imp_iff, implies_true, and_true]
    exact ⟨JsonText.Written.string h.2, JsonText.Written.boolean _, JsonText.Written.string h.1⟩

theorem written_toJson {as : List Achievement} (h : ∀ a ∈ as, a.Valid) :
    JsonText.Written (dialect finite) (toJson as) := by
  cases as with
  | nil => exact JsonText.Written.null
  | cons a as =>
    apply JsonText.Written.array
    intro v hv
    obtain ⟨b, hb, rfl⟩ := List.mem_map.mp hv
    exact written_to_json (h b hb)

theorem skipBom_fileText (as : List Achievement) : skipBom (fileText as) = some (fileText as) := by
  cases as with
  | nil => rfl
  | cons a as =>
    have hne : (a :: as).map to_json ≠ [] := List.cons_ne_nil _ _
    have hjson : toJson (a :: as) = .array ((a :: as).map to_json) := rfl
    rw [fileText, hjson, JsonText.write_array hne]
    rfl

theorem elements_toJson (as : List Achievement) : elements (toJson as) = as.map to_json := by
  cases as <;> rfl

/-- The round trip of a list through its file. -/
theorem readFromFile_fileText {as : List Achievement} (h : ∀ a ∈ as, a.Valid) :
    readFromFile finite (some (fileText as)) = some as := by
  have hends : JsonText.Ends [0x0A] := ⟨0x0A, [], rfl, Or.inl rfl⟩
  have hread : JsonText.read (dialect finite) (fileText as) = some (toJson as, [0x0A]) :=
    JsonText.read_write (written_toJson h) 4 0 hends
  rw [readFromFile]
  simp only [Option.bind_eq_bind, Option.bind_some, skipBom_fileText, hread, elements_toJson,
    mapM_from_json]

/-- A list that is read has valid texts. -/
theorem valid_of_from_json {v : Value} {a : Achievement}
    (hv : JsonText.Taken (dialect finite) v) (h : from_json v = some a) : a.Valid := by
  cases v with
  | object members =>
    have hstring {key s : Bytes}
        (hs : (KeyedList.find? key (asMap members)).bind getString = some s) :
        validUtf8 s = true := by
      obtain ⟨w, hw, hs⟩ := Option.bind_eq_some_iff.mp hs
      have hmem : (key, w) ∈ members := by
        have hmap := KeyedList.mem_of_find? hw
        simpa using KeyedList.mem_foldl_insert hmap
      cases hv with
      | object _ hmembers =>
        have htaken := hmembers (key, w) hmem
        cases w with
        | string s' =>
          obtain rfl := Option.some.inj hs
          cases htaken with
          | string htakes => exact htakes
        | _ => cases hs
    obtain ⟨m_name, hname, h⟩ := Option.bind_eq_some_iff.mp h
    obtain ⟨m_description, hdescription, h⟩ := Option.bind_eq_some_iff.mp h
    obtain ⟨m_isCompleted, -, h⟩ := Option.bind_eq_some_iff.mp h
    obtain rfl := Option.some.inj h
    exact ⟨hstring hname, hstring hdescription⟩
  | _ => cases h

theorem mem_of_mapM {vs : List Value} {as : List Achievement} (h : vs.mapM from_json = some as) :
    ∀ a ∈ as, ∃ v ∈ vs, from_json v = some a := by
  induction vs generalizing as with
  | nil =>
    obtain rfl := Option.some.inj h
    intro a ha
    cases ha
  | cons v vs ih =>
    rw [List.mapM_cons] at h
    obtain ⟨a, ha, h⟩ := Option.bind_eq_some_iff.mp h
    obtain ⟨as', has, h⟩ := Option.bind_eq_some_iff.mp h
    obtain rfl := Option.some.inj h
    intro b hb
    obtain rfl | hb := List.mem_cons.mp hb
    · exact ⟨v, List.mem_cons_self, ha⟩
    · obtain ⟨w, hw, hwb⟩ := ih has b hb
      exact ⟨w, List.mem_cons_of_mem v hw, hwb⟩

theorem taken_elements {j v : Value} (hj : JsonText.Taken (dialect finite) j)
    (hv : v ∈ elements j) : JsonText.Taken (dialect finite) v := by
  cases hj with
  | null => cases hv
  | array helements => exact helements v hv
  | object hkeys hmembers =>
    obtain ⟨m, hm, rfl⟩ := List.mem_map.mp hv
    have hmem := KeyedList.mem_foldl_insert hm
    exact hmembers m (by simpa using hmem)
  | boolean b =>
    rw [List.mem_singleton.mp hv]
    exact JsonText.Taken.boolean b
  | number w =>
    rw [List.mem_singleton.mp hv]
    exact JsonText.Taken.number w
  | string htakes =>
    rw [List.mem_singleton.mp hv]
    exact JsonText.Taken.string htakes

theorem valid_of_readFromFile {file : Option Bytes} {as : List Achievement}
    (h : readFromFile finite file = some as) : ∀ a ∈ as, a.Valid := by
  obtain ⟨text, -, h⟩ := Option.bind_eq_some_iff.mp h
  obtain ⟨text', -, h⟩ := Option.bind_eq_some_iff.mp h
  obtain ⟨⟨j, rest⟩, hj, h⟩ := Option.bind_eq_some_iff.mp h
  intro a ha
  obtain ⟨v, hv, hva⟩ := mem_of_mapM h a ha
  exact valid_of_from_json (taken_elements (JsonText.taken_of_value hj) hv) hva

end

/-- The file holds what the list has, every pointer is to an object, and all texts are valid. -/
structure Saved (finite : Bytes → Bool) (l : AchievementList) : Prop where
  file : readFromFile finite l.file = some l.contents
  pointers : ∀ p ∈ l.m_achievements, p < l.heap.length
  valid : ∀ a ∈ l.heap, a.Valid

/-- What a caller passes: an object with valid texts, or a pointer to one that was made. -/
def Passes (l : AchievementList) : AchievementCall → Prop
  | .made a => a.Valid
  | .addAchievement p => p < l.heap.length
  | .modifyAchievementByName _ p => p < l.heap.length
  | .removeAchievementByName _ => True
  | .completeAchievementByName _ => True

section
variable {finite : Bytes → Bool}

theorem mem_heap_of_mem_contents {l : AchievementList} {a : Achievement} (h : a ∈ l.contents) :
    a ∈ l.heap := by
  obtain ⟨p, _, hp⟩ := List.mem_filterMap.mp h
  exact List.mem_of_getElem? hp

/-- A write leaves file and list in step. -/
theorem saved_writeToFile {l : AchievementList}
    (hpointers : ∀ p ∈ l.m_achievements, p < l.heap.length) (hvalid : ∀ a ∈ l.heap, a.Valid) :
    ∃ l', writeToFile l = some l' ∧ Saved finite l' := by
  have hcontents : ∀ a ∈ l.contents, a.Valid := fun a ha => hvalid a (mem_heap_of_mem_contents ha)
  refine ⟨{ l with file := some (fileText l.contents) }, if_pos hcontents, ?_, hpointers, hvalid⟩
  exact readFromFile_fileText hcontents

theorem contents_construct {heap as : List Achievement} (file : Option Bytes) :
    contents ⟨heap ++ as, List.range' heap.length as.length, file⟩ = as := by
  induction as generalizing heap with
  | nil => rfl
  | cons a as ih =>
    have hrest := @ih (heap ++ [a])
    rw [List.length_append, List.append_assoc, List.singleton_append] at hrest
    have hhead : (heap ++ a :: as)[heap.length]? = some a := by
      rw [List.getElem?_append_right (Nat.le_refl _), Nat.sub_self, List.getElem?_cons_zero]
    rw [contents, List.length_cons, List.range'_succ, List.filterMap_cons, hhead]
    exact congrArg (List.cons a) hrest

theorem saved_construct {heap : List Achievement} {file : Option Bytes} {l : AchievementList}
    (h : construct finite heap file = some l) (hheap : ∀ a ∈ heap, a.Valid) : Saved finite l := by
  obtain ⟨as, has, rfl⟩ := Option.map_eq_some_iff.mp h
  constructor
  · rw [contents_construct]
    exact has
  · intro p hp
    rw [List.mem_range'_1] at hp
    rw [List.length_append]
    exact hp.2
  · intro a ha
    obtain ha | ha := List.mem_append.mp ha
    · exact hheap a ha
    · exact valid_of_readFromFile has a ha

/-- Objects that are made later do not change the list. -/
theorem contents_append (l : AchievementList)
    (hpointers : ∀ p ∈ l.m_achievements, p < l.heap.length) (a : Achievement) :
    contents { l with heap := l.heap ++ [a] } = l.contents := by
  apply List.filterMap_congr
  intro p hp
  exact List.getElem?_append_left (hpointers p hp)

theorem valid_modify {heap : List Achievement} (h : ∀ a ∈ heap, a.Valid) (i : ℕ) :
    ∀ a ∈ heap.modify i markAsCompleted, a.Valid := by
  intro a ha
  obtain ⟨j, hj⟩ := List.mem_iff_getElem?.mp ha
  rw [List.getElem?_modify] at hj
  obtain ⟨b, hb, rfl⟩ := Option.map_eq_some_iff.mp hj
  have hvalid := h b (List.mem_of_getElem? hb)
  split_ifs
  · exact hvalid
  · exact hvalid

/-- Every call returns, and leaves file and list in step. -/
theorem saved_step {l : AchievementList} (h : Saved finite l) {c : AchievementCall}
    (hc : Passes l c) : ∃ l', step l c = some l' ∧ Saved finite l' := by
  cases c with
  | made a =>
    refine ⟨_, rfl, ?_, ?_, ?_⟩
    · rw [contents_append l h.pointers a]
      exact h.file
    · intro p hp
      have hlt := h.pointers p hp
      rw [List.length_append]
      omega
    · intro b hb
      obtain hb | hb := List.mem_append.mp hb
      · exact h.valid b hb
      · rw [List.mem_singleton.mp hb]
        exact hc
  | addAchievement p =>
    have hp : p < l.heap.length := hc
    rw [step, if_pos hp]
    apply saved_writeToFile
    · intro q hq
      obtain hq | hq := List.mem_append.mp hq
      · exact h.pointers q hq
      · rw [List.mem_singleton.mp hq]
        exact hc
    · exact h.valid
  | removeAchievementByName name =>
    rw [step]
    split
    · apply saved_writeToFile
      · intro q hq
        exact h.pointers q (List.mem_of_mem_eraseIdx hq)
      · exact h.valid
    · exact ⟨l, rfl, h⟩
  | modifyAchievementByName name p =>
    have hp : p < l.heap.length := hc
    rw [step, if_pos hp]
    split
    · apply saved_writeToFile
      · intro q hq
        obtain hq | rfl := List.mem_or_eq_of_mem_set hq
        · exact h.pointers q hq
        · exact hc
      · exact h.valid
    · exact ⟨l, rfl, h⟩
  | completeAchievementByName name =>
    rw [step]
    split
    · apply saved_writeToFile
      · intro q hq
        rw [List.length_modify]
        exact h.pointers q hq
      · exact valid_modify h.valid _
    · exact ⟨l, rfl, h⟩

theorem saved_run {l : AchievementList} (h : Saved finite l) {calls : List AchievementCall}
    (hcalls : Steps step Passes l calls) : ∃ l', run step l calls = some l' ∧ Saved finite l' := by
  induction calls generalizing l with
  | nil => exact ⟨l, rfl, h⟩
  | cons c calls ih =>
    obtain ⟨l₁, hstep, hsaved⟩ := saved_step h hcalls.1
    obtain ⟨l₂, hrun, hsaved₂⟩ := ih hsaved (hcalls.2 l₁ hstep)
    exact ⟨l₂, (run_cons_eq_some step).mpr ⟨l₁, hstep, hrun⟩, hsaved₂⟩

/-- From any list that was read from a file, every sequence of calls returns, and a list that is
then constructed from the file has the same achievements in the same order. -/
theorem contents_persist {heap : List Achievement} {file : Option Bytes} {l : AchievementList}
    (hheap : ∀ a ∈ heap, a.Valid) (hread : construct finite heap file = some l)
    {calls : List AchievementCall} (hcalls : Steps step Passes l calls) :
    ∃ l', run step l calls = some l' ∧ ∀ heap', ∃ reopened,
      construct finite heap' l'.file = some reopened ∧ reopened.contents = l'.contents := by
  obtain ⟨l', hrun, hsaved⟩ := saved_run (saved_construct hread hheap) hcalls
  refine ⟨l', hrun, fun heap' => ⟨_, Option.map_eq_some_iff.mpr ⟨_, hsaved.file, rfl⟩, ?_⟩⟩
  exact contents_construct l'.file

/-- A list that starts empty, with an achievement added and completed. -/
theorem contents_persist_example : ∃ l', run step ⟨[], [], some (bytes "null")⟩
      [.made ⟨bytes "Moon", bytes "A photo of it", false⟩, .addAchievement 0,
        .completeAchievementByName (bytes "Moon")] = some l' ∧
    ∀ heap', ∃ reopened, construct (fun _ => true) heap' l'.file = some reopened ∧
      reopened.contents = l'.contents := by
  have hread : construct (fun _ => true) [] (some (bytes "null")) =
      some ⟨[], [], some (bytes "null")⟩ := rfl
  refine contents_persist (fun a ha => by cases ha) hread ?_
  have hvalid : Valid ⟨bytes "Moon", bytes "A photo of it", false⟩ := by decide
  refine ⟨hvalid, fun t ht => ?_⟩
  obtain rfl := Option.some.inj ht
  exact ⟨Nat.one_pos, fun t _ => ⟨trivial, fun t _ => trivial⟩⟩

end

end AchievementList

end OpenAPT
