import OpenAPT.ConfigLoad
import OpenAPT.JsonFile

/-! `saveToFile` of `ConfigManager`, and a saved configuration that is loaded again. -/
namespace OpenAPT

/-- What `operator>>` makes of a file, `none` where it does not open. Bytes behind the value stay in
the stream. -/
def FileContents.ofFile (floats : FloatText) : Option Bytes → FileContents
  | none => .unopened
  | some file =>
    match (AchievementList.skipBom file).bind (JsonText.read (Json.dialect floats)) with
    | some (v, _) => .parsed ⟨Json.ofValue floats v, Json.ordered_ofValue v⟩
    | none => .unparsable

namespace ConfigManager
variable {floats : FloatText}

/-- `saveToFile` on a path that opens or does not: whether it returns, and the file afterwards. The
file is cut to nothing before `dump` throws. -/
def saveToFile (floats : FloatText) (config : ConfigManager) (opens : Bool) (file : Option Bytes) :
    Bool × Option Bytes :=
  if opens then
    if config.config_.dumpable then
      (true, some (JsonText.write 4 0 (config.config_.toValue floats)))
    else (false, some [])
  else (true, file)

/-! The keys of a path that starts with a name. -/

theorem find_slash_append {name : Bytes} (h : ∀ c ∈ name, c ∉ bytes "/") (q : Bytes) :
    find (bytes "/") (name ++ bytes "/" ++ q) = some name.length := by
  induction name with
  | nil =>
    have hprefix : bytes "/" <+: [] ++ bytes "/" ++ q := List.prefix_append (bytes "/") q
    exact if_pos hprefix
  | cons c name ih =>
    rw [List.forall_mem_cons] at h
    have hprefix : ¬ bytes "/" <+: c :: (name ++ bytes "/" ++ q) := by
      intro hp
      exact h.1 (List.mem_singleton.mpr (List.cons_prefix_cons.mp hp).1.symm)
    rw [List.cons_append, List.cons_append, find, if_neg hprefix, ih h.2]
    rfl

/-- More fuel and other tokens in front change nothing. -/
theorem splitLoop_of_fuel {delimiter : Bytes} {fuel : ℕ} {s : Bytes} {tokens pieces : List Bytes}
    (h : splitLoop delimiter fuel s tokens = some pieces) (more : ℕ) (front : List Bytes) :
    splitLoop delimiter (fuel + more) s (front ++ tokens) = some (front ++ pieces) := by
  induction fuel generalizing s tokens with
  | zero => cases h
  | succ fuel ih =>
    rw [Nat.succ_add, splitLoop]
    rw [splitLoop] at h
    cases hpos : find delimiter s with
    | none =>
      simp only [hpos, Option.some.injEq] at h ⊢
      rw [← h, List.append_assoc]
    | some pos =>
      simp only [hpos] at h ⊢
      rw [List.append_assoc]
      exact ih h

/-- Behind a name without a slash there are the keys of the rest of the path. -/
theorem keysOf_append {name : Bytes} (h : ∀ c ∈ name, c ∉ bytes "/") (q : Bytes) :
    (keysOf (name ++ bytes "/" ++ q)).1 = name :: (keysOf q).1 := by
  obtain ⟨front, last, hq⟩ := split_slash q
  have hlength : (name ++ bytes "/" ++ q).length + 1 = q.length + 1 + name.length + 1 := by
    have hone : (bytes "/").length = 1 := rfl
    rw [List.length_append, List.length_append, hone]
    omega
  have hturn : name.length + (bytes "/").length = (name ++ bytes "/").length :=
    List.length_append.symm
  have hsplit : split (name ++ bytes "/" ++ q) (bytes "/") = some (name :: (front ++ [last])) := by
    rw [split, hlength, splitLoop, find_slash_append h]
    simp only [hturn, List.drop_left, List.nil_append]
    rw [List.append_assoc, List.take_left]
    exact splitLoop_of_fuel hq name.length [name]
  simp only [keysOf, hsplit, hq, Option.get_some]

/-! Reading below a node. -/

theorem getKeys_reread (j : Json) (keys : List Bytes) :
    getKeys j.reread keys = (getKeys j keys).reread := by
  induction keys generalizing j with
  | nil => rfl
  | cons key keys ih =>
    rw [getKeys, getKeys, Json.find?_reread]
    cases j.find? key with
    | none => rfl
    | some child => exact ih child

theorem find?_mergePatch_null {j : Json} (hj : j.Ordered) (key : Bytes) :
    (Json.mergePatch .null j).find? key = (j.find? key).bind (Json.patchMember none) := by
  cases j with
  | object o =>
    have ho : Json.OrderedMembers o := hj.members
    rw [Json.mergePatch, Json.find?, Json.find?_mergeMembers,
      ho.sorted.values strictTotal_bytes, Json.find?]
    cases KeyedList.find? key o with
    | none => rfl
    | some child => rfl
  | _ => rfl

/-- What is found below a value that was merged into nothing. -/
theorem getKeys_mergePatch_null {j : Json} (hj : j.Ordered) (keys : List Bytes) :
    getKeys (Json.mergePatch .null j) keys = Json.mergePatch .null (getKeys j keys) := by
  induction keys generalizing j with
  | nil => rfl
  | cons key keys ih =>
    rw [getKeys, getKeys, find?_mergePatch_null hj]
    cases hchild : j.find? key with
    | none => rfl
    | some child =>
      have hordered : child.Ordered := by
        cases j with
        | object o => exact hj.members.find? hchild
        | _ => cases hchild
      by_cases hnull : child = .null
      · -- a null is dropped by the merge, and nothing is below it either
        subst hnull
        have hbelow : getKeys Json.null keys = .null := by
          cases keys with
          | nil => rfl
          | cons _ _ => rfl
        simp only [Option.bind_some, Json.patchMember, hbelow]
        rfl
      · rw [Option.bind_some, Json.patchMember_of_ne_null hnull]
        exact ih hordered

/-! A saved configuration. -/

theorem skipBom_of_lt {b : UInt8} (hb : b < 0x80) (s : Bytes) :
    AchievementList.skipBom (b :: s) = some (b :: s) := by
  have hbom : b ≠ 0xEF := by
    rintro rfl
    exact absurd hb (by decide)
  unfold AchievementList.skipBom
  split
  · rename_i heq
    exact absurd (List.cons.inj heq).1 hbom
  · rename_i heq
    exact absurd (List.cons.inj heq).1 hbom
  · rfl

theorem ordered_reread (hfloats : floats.Exact) {j : Json} (hj : j.Textual) : j.reread.Ordered := by
  rw [← Json.ofValue_toValue hfloats hj]
  exact Json.ordered_ofValue _

/-- The file of a value that `dump` takes. -/
theorem ofFile_write (hfloats : floats.Exact) {j : Json} (hj : j.Textual)
    (hdump : j.dumpable = true) :
    FileContents.ofFile floats (some (JsonText.write 4 0 (j.toValue floats))) =
      .parsed ⟨j.reread, ordered_reread hfloats hj⟩ := by
  have hwritable := Json.writable_toValue hfloats hj hdump
  have hread := JsonText.read_of_writable hwritable 4 0
  obtain ⟨b, s, hw, -, -, hb⟩ := hwritable.head 4 0
  have hskip : AchievementList.skipBom (JsonText.write 4 0 (j.toValue floats)) =
      some (JsonText.write 4 0 (j.toValue floats)) := by
    rw [hw]
    exact skipBom_of_lt hb s
  have hvalue := Json.ofValue_toValue hfloats hj
  simp only [FileContents.ofFile, hskip, Option.bind_some, hread, hvalue]

/-- The file of a value on which `dump` throws is empty, and does not parse. -/
theorem ofFile_nil : FileContents.ofFile floats (some []) = .unparsable := rfl

/-- What `merge_patch` with one member does to a configuration without it. -/
theorem getValue_merged {config : ConfigManager} {name : Bytes} {j : Json}
    (hname : ∀ c ∈ name, c ∉ bytes "/") (hnone : config.config_.find? name = none)
    (hj : j.Ordered) (q : Bytes) :
    (⟨config.config_.mergePatch (.object [(name, j)])⟩ : ConfigManager).getValue
        (name ++ bytes "/" ++ q) = Json.mergePatch .null (getKeys j (keysOf q).1) := by
  have hmembers : KeyedList.find? name config.config_.members = none := by
    cases hconfig : config.config_ with
    | object o =>
      rw [hconfig] at hnone
      exact hnone
    | _ => rfl
  have hchild : (config.config_.mergePatch (.object [(name, j)])).find? name =
      Json.patchMember none j := by
    rw [Json.mergePatch, Json.find?, Json.mergeMembers, Json.mergeMembers, Json.find?_mergeMember,
      if_pos rfl, hmembers]
  rw [getValue, keysOf_append hname, getKeys, hchild]
  -- `merge_patch` erases the member that is null instead of storing it
  by_cases hnull : j = .null
  · subst hnull
    have hkeys := (keysOf q).2
    cases hq : (keysOf q).1 with
    | nil => exact absurd hq hkeys
    | cons key keys => rfl
  · rw [Json.patchMember_of_ne_null hnull]
    exact getKeys_mergePatch_null hj _

/-- A configuration that is saved and loaded, by the same manager or another. What `dump` takes is
merged under the name of the file, up to the signs of numbers, and a manager that had nothing under
this name then reads the old value of every path behind the name, without the nulls in its objects.
Where `dump` throws on a text, an empty file is left; there and where it throws on the name, nothing
is loaded. -/
theorem loadFromFile_saveToFile (hfloats : floats.Exact) {config : ConfigManager}
    (hconfig : config.config_.Textual) (config' : ConfigManager) (file : Option Bytes)
    (path : Bytes) :
    let name := name_without_ext path
    let saved := saveToFile floats config true file
    let loaded := loadFromFile config' path (.ofFile floats saved.2)
    saved.1 = config.config_.dumpable ∧ (config.config_.dumpable = false → saved.2 = some []) ∧
      loaded.1 = .ok () ∧
      (config.config_.dumpable = true → validUtf8 name = true →
        loaded.2.config_ = config'.config_.mergePatch (.object [(name, config.config_.reread)]) ∧
        (config'.config_.find? name = none → ∀ q, loaded.2.getValue (name ++ bytes "/" ++ q) =
          Json.mergePatch .null (config.getValue q).reread)) ∧
      (config.config_.dumpable = false ∨ validUtf8 name = false → loaded.2 = config') := by
  intro name saved loaded
  have hordered := ordered_reread hfloats hconfig
  have hpatch : (Json.object [(name, config.config_.reread)]).dumpable =
      (validUtf8 name && config.config_.dumpable) := by
    rw [Json.dumpable, Json.dumpableMembers, Json.dumpableMembers, Json.dumpableMember,
      Json.dumpable_reread hconfig, Bool.and_true]
  cases hdump : config.config_.dumpable with
  | false =>
    -- the file was cut to nothing, and an empty file does not parse
    have hsaved : saved = (false, some []) := by
      simp only [saved, saveToFile, hdump, ↓reduceIte, Bool.false_eq_true]
    have hloaded : loaded = (.ok (), config') := by
      simp only [loaded, hsaved, ofFile_nil, loadFromFile]
    rw [hloaded, hsaved]
    exact ⟨rfl, fun _ => rfl, rfl, fun h => absurd h Bool.false_ne_true, fun _ => rfl⟩
  | true =>
    have hsaved : saved = (true, some (JsonText.write 4 0 (config.config_.toValue floats))) := by
      simp only [saved, saveToFile, hdump, ↓reduceIte]
    have hloaded : loaded = (.ok (), (mergeConfig config'
        (.object [(name, config.config_.reread)])).getD config') := by
      simp only [loaded, hsaved, ofFile_write hfloats hconfig hdump, loadFromFile, name]
    rw [hdump, Bool.and_true] at hpatch
    rw [hsaved, hloaded]
    refine ⟨rfl, fun h => absurd h.symm Bool.false_ne_true, rfl, fun _ hname => ?_,
      fun hbad => ?_⟩
    · rw [mergeConfig, hpatch, if_pos hname, Option.getD_some]
      refine ⟨rfl, fun hnone q => ?_⟩
      have hvalue := getValue_merged (not_mem_name_without_ext path) hnone hordered q
      rw [getKeys_reread] at hvalue
      exact hvalue
    · -- the file is read, but its name throws when the patch is printed
      have hname : validUtf8 name = false := by
        rcases hbad with hbad | hbad
        · exact absurd hbad.symm Bool.false_ne_true
        · exact hbad
      rw [mergeConfig, hpatch, hname, if_neg Bool.false_ne_true, Option.getD_none]

/-- FloatText whose number is printed as the bits, with a fraction of zero. -/
def bitFloats : FloatText where
  text bits := Decimals.natText bits.toNat ++ bytes ".0"
  value w := UInt64.ofNat (Decimals.natOf (w.takeWhile Readers.isDigit))

theorem exact_bitFloats : bitFloats.Exact where
  number bits _ := by
    have hinteger := JsonText.isInteger_intText (bits.toNat : ℤ)
    refine ⟨Decimals.natText bits.toNat, bytes ".0", [], rfl, hinteger, ?_, Or.inl rfl, ?_⟩
    · have hzero : Readers.isDigit 0x30 = true := rfl
      exact Or.inr ⟨bytes "0", rfl, List.cons_ne_nil _ _, List.forall_mem_singleton.mpr hzero⟩
    · exact Or.inl (List.cons_ne_nil _ _)
  value bits _ := by
    have hdigits := Decimals.isDigit_natText bits.toNat
    have htake : (bitFloats.text bits).takeWhile Readers.isDigit = Decimals.natText bits.toNat := by
      rw [bitFloats, List.takeWhile_append_of_pos hdigits]
      exact List.append_nil _
    have hvalue : bitFloats.value (bitFloats.text bits) =
        UInt64.ofNat (Decimals.natOf ((bitFloats.text bits).takeWhile Readers.isDigit)) := rfl
    rw [hvalue, htake, Decimals.natOf_natText, UInt64.ofNat_toNat]

/-- A configuration with a number, a zero and a null. -/
def cameraConfig : ConfigManager :=
  ⟨.object [(bytes "camera", .object [(bytes "gain", .numberInteger 5), (bytes "name", .null)]),
    (bytes "offset", .numberFloat 0)]⟩

theorem textual_cameraConfig : cameraConfig.config_.Textual := by
  have hcamera : (Json.object [(bytes "gain", .numberInteger 5), (bytes "name", .null)]).Textual := by
    apply Json.Textual.object
    · unfold KeyedList.Sorted
      decide
    · exact List.forall_mem_cons.mpr ⟨.numberInteger 5, List.forall_mem_singleton.mpr .null⟩
  apply Json.Textual.object
  · unfold KeyedList.Sorted
    decide
  · exact List.forall_mem_cons.mpr ⟨hcamera, List.forall_mem_singleton.mpr (.numberFloat 0)⟩

/-- The camera of a fresh manager after the file is loaded: the number is there, now unsigned, and
the null is not. -/
theorem loadFromFile_saveToFile_camera :
    (loadFromFile ⟨.null⟩ (bytes "config/main.json")
      (.ofFile bitFloats (saveToFile bitFloats cameraConfig true none).2)).2.getValue
        (bytes "main/camera") = .object [(bytes "gain", .numberUnsigned 5)] := by
  have hload := loadFromFile_saveToFile exact_bitFloats textual_cameraConfig ⟨.null⟩ none
    (bytes "config/main.json")
  have hmerged := hload.2.2.2.1 (by decide) (by decide)
  exact hmerged.2 rfl (bytes "camera")

end ConfigManager

end OpenAPT
