import OpenAPT.AchievementList
import OpenAPT.Lib.JsonDump

/-! The calls of `AchievementList` with their failures. The memory is changed first, then the file
is emptied, and then the serializer may throw. -/
namespace OpenAPT
open JsonText (Value Writer)

/-- `dump_escaped` in strict mode, with its state, its buffer of 512 bytes and what is in the
stream. The buffer is written where another code point might not fit, and at the end. -/
def dumpEscapedFrom (state : Utf8State) (buffer : Bytes) : Bytes → Writer
  | [] => fun out => if state = .accept then .ok (out ++ buffer) else .error out
  | byte :: s => fun out =>
    match decode state byte with
    | none => .error out
    | some .accept =>
      let buffer := buffer ++ JsonText.escapeByte byte
      if 512 < buffer.length + 13 then dumpEscapedFrom .accept [] s (out ++ buffer)
      else dumpEscapedFrom .accept buffer s out
    | some state => dumpEscapedFrom state (buffer ++ [byte]) s out

def dump_escaped (s : Bytes) : Writer := dumpEscapedFrom .accept [] s

/-- A byte that does not complete a code point is not one of ASCII. -/
theorem le_of_decode {state next : Utf8State} {byte : UInt8} (h : decode state byte = some next)
    (hnext : next ≠ .accept) : 0x80 ≤ byte := by
  have hall : ∀ byte : UInt8,
      ((decode state byte).all fun next => next = .accept || 0x80 ≤ byte) = true := by
    cases state <;> exact Readers.forall_byte (by decide +kernel)
  have hbyte := hall byte
  rw [h, Option.all_some, Bool.or_eq_true, decide_eq_true_iff, decide_eq_true_iff] at hbyte
  exact hbyte.resolve_left hnext

theorem escapeByte_of_decode {state next : Utf8State} {byte : UInt8}
    (h : decode state byte = some next) (hnext : next ≠ .accept) :
    JsonText.escapeByte byte = [byte] :=
  JsonText.escapeByte_of_plain byte (JsonText.special_of_ge byte (le_of_decode h hnext))

/-- A valid text is written with its escapes, an invalid one makes `dump_escaped` throw. -/
theorem dumpEscapedFrom_spec (s : Bytes) : ∀ (state : Utf8State) (buffer out : Bytes),
    (validUtf8From state s = true →
      dumpEscapedFrom state buffer s out = .ok (out ++ (buffer ++ JsonText.escape s))) ∧
    (validUtf8From state s = false →
      ∃ out', dumpEscapedFrom state buffer s out = .error out') := by
  induction s with
  | nil =>
    intro state buffer out
    rw [dumpEscapedFrom, validUtf8From]
    by_cases hstate : state = .accept
    · simp [hstate, JsonText.escape]
    · simp [hstate]
  | cons byte s ih =>
    intro state buffer out
    have hescape : JsonText.escape (byte :: s) = JsonText.escapeByte byte ++ JsonText.escape s :=
      List.flatMap_cons
    rw [dumpEscapedFrom, validUtf8From, hescape]
    cases hnext : decode state byte with
    | none => exact ⟨fun h => Bool.noConfusion h, fun _ => ⟨out, rfl⟩⟩
    | some next =>
      by_cases hstate : next = .accept
      · subst hstate
        dsimp only
        split_ifs
        · -- the buffer is written
          have hrest := ih .accept [] (out ++ (buffer ++ JsonText.escapeByte byte))
          simpa only [List.append_assoc, List.nil_append] using hrest
        · have hrest := ih .accept (buffer ++ JsonText.escapeByte byte) out
          simpa only [List.append_assoc] using hrest
      · have hrest := ih next (buffer ++ [byte]) out
        rw [escapeByte_of_decode hnext hstate]
        simpa only [List.append_assoc] using hrest

namespace AchievementList
open Achievement

/-- `file << std::setw(4) << j`, with the text that is there if it throws. -/
def dumpList (as : List Achievement) : Except Bytes Bytes :=
  JsonText.dump dump_escaped 4 0 (toJson as) []

/-- `writeToFile` with whether it throws, where `opens` is whether the file can be opened. What the
stream has got until then is in the file. -/
def saveFile (opens : Bool) (l : AchievementList) : AchievementList × Bool :=
  if !opens then (l, false)
  else
    match dumpList l.contents with
    | .ok out => ({ l with file := some (out ++ [0x0A]) }, false)
    | .error out => ({ l with file := some out }, true)

/-- The state after a call, and whether it throws. -/
def perform (opens : Bool) (l : AchievementList) :
    AchievementCall → Option (AchievementList × Bool)
  | .made a => some ({ l with heap := l.heap ++ [a] }, false)
  | .addAchievement p =>
    if p < l.heap.length then
      some (saveFile opens { l with m_achievements := l.m_achievements ++ [p] })
    else none
  | .removeAchievementByName name =>
    match l.findByName name with
    | some i => some (saveFile opens { l with m_achievements := l.m_achievements.eraseIdx i })
    | none => some (l, false)
  | .modifyAchievementByName name p =>
    if p < l.heap.length then
      match l.findByName name with
      | some i => some (saveFile opens { l with m_achievements := l.m_achievements.set i p })
      | none => some (l, false)
    else none
  | .completeAchievementByName name =>
    match l.findByName name with
    | some i =>
      some (saveFile opens
        { l with heap := l.heap.modify (l.m_achievements.getD i 0) markAsCompleted })
    | none => some (l, false)

/-- If the call throws, memory and file are as they were. -/
def Atomic (opens : Bool) (l : AchievementList) (c : AchievementCall) : Prop :=
  ∀ l', l.perform opens c = some (l', true) → l' = l

/-- The list can be written, or is not written at all. -/
def Writes (opens : Bool) (l : AchievementList) : Prop :=
  opens = true → ∀ a ∈ l.contents, a.Valid

/-- The list has been tried to be written before: the file holds what that leaves. -/
def Tried (l : AchievementList) : Prop :=
  ∃ text, dumpList l.contents = .error text ∧ l.file = some text

/-- The changed list can be written, or the call changes nothing and was tried before. -/
def WritesOrTried (opens : Bool) (l : AchievementList) : AchievementCall → Prop
  | .made _ => True
  | .addAchievement p =>
    p < l.heap.length → Writes opens { l with m_achievements := l.m_achievements ++ [p] }
  | .removeAchievementByName name =>
    ∀ i, l.findByName name = some i →
      Writes opens { l with m_achievements := l.m_achievements.eraseIdx i }
  | .modifyAchievementByName name p =>
    p < l.heap.length → ∀ i, l.findByName name = some i →
      Writes opens { l with m_achievements := l.m_achievements.set i p } ∨
        l.m_achievements[i]? = some p ∧ l.Tried
  | .completeAchievementByName name =>
    ∀ i, l.findByName name = some i →
      Writes opens { l with heap := l.heap.modify (l.m_achievements.getD i 0) markAsCompleted } ∨
        (∀ a, l.heap[l.m_achievements.getD i 0]? = some a → a.m_isCompleted = true) ∧ l.Tried

theorem dump_escaped_spec (s : Bytes) :
    (validUtf8 s = true → Writer.Puts (dump_escaped s) (JsonText.escape s)) ∧
    (validUtf8 s = false → Writer.Throws (dump_escaped s)) := by
  refine ⟨fun h out => ?_, fun h out => ?_⟩
  · have hwritten := (dumpEscapedFrom_spec s .accept [] out).1 h
    rwa [List.nil_append] at hwritten
  · exact (dumpEscapedFrom_spec s .accept [] out).2 h

/-- A list of valid achievements is written whole. -/
theorem dumpList_of_valid {as : List Achievement} (h : ∀ a ∈ as, a.Valid) :
    dumpList as = .ok (JsonText.write 4 0 (toJson as)) := by
  have hwritten := @written_toJson (fun _ => true) as h
  exact JsonText.puts_dump (fun s hs => (dump_escaped_spec s).1 hs) hwritten 4 0 []

theorem dumpList_of_not_valid {as : List Achievement} (h : ¬∀ a ∈ as, a.Valid) :
    ∃ text, dumpList as = .error text := by
  obtain ⟨a, ha⟩ := not_forall.mp h
  obtain ⟨ha, hinvalid⟩ := Classical.not_imp.mp ha
  -- one of the two texts is refused
  have hmember : JsonText.Refused (fun s => validUtf8 s = false) a.to_json := by
    rw [to_json_eq]
    rcases not_and_or.mp hinvalid with hname | hdescription
    · exact .member (m := (bytes "name", .string a.m_name)) (by simp)
        (.string (Bool.not_eq_true _ ▸ hname))
    · exact .member (m := (bytes "description", .string a.m_description)) (by simp)
        (.string (Bool.not_eq_true _ ▸ hdescription))
  have hlist : JsonText.Refused (fun s => validUtf8 s = false) (toJson as) := by
    cases as with
    | nil => cases ha
    | cons b as => exact .element (List.mem_map_of_mem ha) hmember
  exact JsonText.throws_dump (fun s hs => (dump_escaped_spec s).2 hs) hlist 4 0 []

theorem saveFile_of_writes {opens : Bool} {l : AchievementList} (h : l.Writes opens) :
    (saveFile opens l).2 = false := by
  cases opens with
  | false => rfl
  | true =>
    simp only [saveFile, Bool.not_true, Bool.false_eq_true, ↓reduceIte, dumpList_of_valid (h rfl)]

theorem saveFile_of_not_writes {opens : Bool} {l : AchievementList} (h : ¬l.Writes opens) :
    ∃ text, dumpList l.contents = .error text ∧
      saveFile opens l = ({ l with file := some text }, true) := by
  obtain ⟨hopens, hinvalid⟩ := Classical.not_imp.mp h
  obtain ⟨text, htext⟩ := dumpList_of_not_valid hinvalid
  refine ⟨text, htext, ?_⟩
  simp only [saveFile, hopens, Bool.not_true, Bool.false_eq_true, ↓reduceIte, htext]

/-- A changed list is saved without a trace of failure exactly if it is written, or if it is the
list from before and the file has the failed text already. -/
theorem atomic_saveFile_iff (opens : Bool) (l l₁ : AchievementList) (hfile : l₁.file = l.file) :
    (∀ l', saveFile opens l₁ = (l', true) → l' = l) ↔
      l₁.Writes opens ∨ l₁ = l ∧ l.Tried := by
  by_cases hwrites : l₁.Writes opens
  · refine iff_of_true (fun l' h => ?_) (Or.inl hwrites)
    have hreturned := saveFile_of_writes hwrites
    rw [h] at hreturned
    cases hreturned
  · obtain ⟨text, htext, hsave⟩ := saveFile_of_not_writes hwrites
    rw [hsave, or_iff_right hwrites]
    constructor
    · intro h
      have hsame := h _ rfl
      have hl : l₁ = l := by
        rw [← hsame] at hfile
        cases l₁
        cases hfile
        exact hsame
      subst hl
      exact ⟨rfl, text, htext, (congrArg AchievementList.file hsame).symm⟩
    · rintro ⟨rfl, text', htext', htried⟩ l' h
      obtain rfl := Except.error.inj (htext.symm.trans htext')
      obtain rfl := congrArg Prod.fst h
      cases l₁
      cases htried
      rfl

/-- A list with more or fewer entries than before has to be written. -/
theorem atomic_saveFile_iff_of_length (opens : Bool) {l l₁ : AchievementList}
    (hfile : l₁.file = l.file) (hlength : l₁.m_achievements.length ≠ l.m_achievements.length) :
    (∀ l', saveFile opens l₁ = (l', true) → l' = l) ↔ l₁.Writes opens := by
  rw [atomic_saveFile_iff opens l l₁ hfile]
  refine or_iff_left fun hsame => hlength ?_
  rw [hsame.1]

theorem findByName_lt {l : AchievementList} {name : Bytes} {i : ℕ}
    (h : l.findByName name = some i) : i < l.m_achievements.length := by
  obtain ⟨hi, -⟩ := List.findIdx?_eq_some_iff_getElem.mp h
  exact hi

theorem set_eq_self_iff {l : List ℕ} {i p : ℕ} (hi : i < l.length) :
    l.set i p = l ↔ l[i]? = some p := by
  constructor
  · intro h
    rw [← h, List.getElem?_set_self hi]
  · intro h
    rw [List.getElem?_eq_getElem hi, Option.some_inj] at h
    rw [← h, List.set_getElem_self]

theorem modify_eq_self_iff {heap : List Achievement} {j : ℕ} :
    heap.modify j markAsCompleted = heap ↔ ∀ a, heap[j]? = some a → a.m_isCompleted = true := by
  constructor
  · intro h a ha
    have hmarked : heap[j]? = some a.markAsCompleted := by
      rw [← h, List.getElem?_modify, ha, Option.map_eq_map, Option.map_some, if_pos rfl]
    rw [Option.some.inj (ha.symm.trans hmarked)]
    rfl
  · intro h
    refine List.ext_getElem? fun k => ?_
    rw [List.getElem?_modify]
    cases ha : heap[k]? with
    | none => rfl
    | some a =>
      rw [Option.map_eq_map, Option.map_some]
      split_ifs with hk
      · subst hk
        have hcompleted := h a ha
        obtain ⟨name, description, completed⟩ := a
        obtain rfl : completed = true := hcompleted
        rfl
      · rfl

/-- A call is atomic exactly if the changed list can be written, or nothing is left to change. -/
theorem atomic_iff (opens : Bool) (l : AchievementList) (c : AchievementCall) :
    l.Atomic opens c ↔ l.WritesOrTried opens c := by
  unfold Atomic
  cases c with
  | made a =>
    refine iff_of_true (fun l' h => ?_) trivial
    cases congrArg Prod.snd (Option.some.inj h)
  | addAchievement p =>
    simp only [perform, WritesOrTried]
    split_ifs with hp
    · simp only [Option.some_inj, forall_prop_of_true hp]
      apply atomic_saveFile_iff_of_length
      · rfl
      · rw [List.length_append, List.length_singleton]
        omega
    · exact iff_of_true nofun fun h => absurd h hp
  | removeAchievementByName name =>
    simp only [perform, WritesOrTried]
    cases hfind : l.findByName name with
    | none => exact iff_of_true nofun nofun
    | some i =>
      have hi := findByName_lt hfind
      simp only [Option.some_inj, forall_eq']
      apply atomic_saveFile_iff_of_length
      · rfl
      · rw [List.length_eraseIdx_of_lt hi]
        omega
  | modifyAchievementByName name p =>
    simp only [perform, WritesOrTried]
    split_ifs with hp
    · rw [forall_prop_of_true hp]
      cases hfind : l.findByName name with
      | none => exact iff_of_true nofun nofun
      | some i =>
        have hi := findByName_lt hfind
        simp only [Option.some_inj, forall_eq']
        refine (atomic_saveFile_iff opens l
          { l with m_achievements := l.m_achievements.set i p } rfl).trans ?_
        rw [← set_eq_self_iff hi]
        refine or_congr_right (and_congr_left fun _ => ⟨fun h => ?_, fun h => ?_⟩)
        · exact congrArg m_achievements h
        · rw [h]
    · exact iff_of_true nofun fun h => absurd h hp
  | completeAchievementByName name =>
    simp only [perform, WritesOrTried]
    cases hfind : l.findByName name with
    | none => exact iff_of_true nofun nofun
    | some i =>
      simp only [Option.some_inj, forall_eq']
      refine (atomic_saveFile_iff opens l
        { l with heap := l.heap.modify (l.m_achievements.getD i 0) markAsCompleted } rfl).trans ?_
      rw [← modify_eq_self_iff]
      refine or_congr_right (and_congr_left fun _ => ⟨fun h => ?_, fun h => ?_⟩)
      · exact congrArg heap h
      · rw [h]

/-- The calls that return are the steps of the list. -/
theorem step_eq_some_iff (l l' : AchievementList) (c : AchievementCall) :
    step l c = some l' ↔ l.perform true c = some (l', false) := by
  have hsave (l₁ : AchievementList) :
      writeToFile l₁ = some l' ↔ some (saveFile true l₁) = some (l', false) := by
    by_cases hvalid : ∀ a ∈ l₁.contents, a.Valid
    · rw [writeToFile, if_pos hvalid, saveFile, dumpList_of_valid hvalid]
      simp [fileText]
    · obtain ⟨text, -, hfile⟩ := saveFile_of_not_writes fun h : l₁.Writes true => hvalid (h rfl)
      rw [writeToFile, if_neg hvalid, hfile]
      simp
  have hsame (l₁ : AchievementList) :
      some l₁ = some l' ↔ some (l₁, false) = some (l', false) := by simp
  cases c with
  | made a => exact hsame _
  | addAchievement p =>
    simp only [step, perform]
    split_ifs
    · exact hsave _
    · refine iff_of_false (fun hnone => ?_) fun hnone => ?_
      · cases hnone
      · cases hnone
  | removeAchievementByName name =>
    simp only [step, perform]
    cases l.findByName name with
    | none => exact hsame l
    | some i => exact hsave _
  | modifyAchievementByName name p =>
    simp only [step, perform]
    split_ifs
    · cases l.findByName name with
      | none => exact hsame l
      | some i => exact hsave _
    · refine iff_of_false (fun hnone => ?_) fun hnone => ?_
      · cases hnone
      · cases hnone
  | completeAchievementByName name =>
    simp only [step, perform]
    cases l.findByName name with
    | none => exact hsame l
    | some i => exact hsave _

/-- An achievement whose name is not valid UTF-8 has been made. -/
def invalidName : AchievementList :=
  ⟨[⟨[0xFF], bytes "A photo of it", false⟩], [], some (bytes "null\n")⟩

/-- It stays in the list, and the file ends where its name should be. -/
theorem not_atomic_invalidName : ¬invalidName.Atomic true (.addAchievement 0) := by
  intro h
  have hinvalid : ¬Writes true { invalidName with m_achievements := [0] } := by
    intro hwrites
    exact absurd (hwrites rfl _ List.mem_cons_self) (by decide)
  obtain ⟨text, -, hsave⟩ := saveFile_of_not_writes hinvalid
  have hlist := congrArg m_achievements (h _ (congrArg some hsave))
  cases hlist

end AchievementList

end OpenAPT
