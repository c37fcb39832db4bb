import OpenAPT.ConfigManager
import OpenAPT.MergePatch

/-! `loadFromFile` and `loadFromDir` of `ConfigManager`: JSON files merged into the configuration
under keys made from their paths. -/
namespace OpenAPT

/-- What comes of reading a JSON value from a path. The stream may not open, its buffer may throw,
and the parser may throw; what it returns keeps its keys in order. -/
inductive FileContents
  | unopened
  | unreadable (e : StdException)
  | unparsable
  | parsed (j : {j : Json // j.Ordered})

/-- An entry of a directory. The contents of a subdirectory are what a stream opened on it gives. -/
inductive DirEntry
  | file (name : Bytes) (contents : FileContents)
  | directory (name : Bytes) (contents : FileContents) (entries : List DirEntry)

namespace DirEntry

def name : DirEntry → Bytes
  | file name _ => name
  | directory name _ _ => name

def contents : DirEntry → FileContents
  | file _ contents => contents
  | directory _ contents _ => contents

def entries : DirEntry → List DirEntry
  | file _ _ => []
  | directory _ _ entries => entries

end DirEntry

/-- The stream buffer does not throw. -/
def FileContents.Readable : FileContents → Prop
  | unreadable _ => False
  | _ => True

namespace ConfigManager

def find_last_of (chars : Bytes) : Bytes → Option ℕ
  | [] => none
  | c :: s =>
    match find_last_of chars s with
    | some pos => some (pos + 1)
    | none => if c ∈ chars then some 0 else none

/-- `path.substr(path.find_last_of("/\\") + 1)`. -/
def basename (path : Bytes) : Bytes :=
  match find_last_of (bytes "/\\") path with
  | some pos => path.drop (pos + 1)
  | none => path

def name_without_ext (path : Bytes) : Bytes :=
  match find_last_of (bytes ".") (basename path) with
  | some pos => (basename path).take pos
  | none => basename path

/-- `path::extension` of a file name other than `.` and `..`: a dot in front starts none. -/
def extension (filename : Bytes) : Bytes :=
  match find_last_of (bytes ".") filename with
  | some (pos + 1) => filename.drop (pos + 1)
  | _ => []

/-- The path of an entry that `directory_iterator(dir_path)` gives: `dir_path / name`. -/
def join (dir_path name : Bytes) : Bytes :=
  if dir_path = [] ∨ dir_path.getLast? = (bytes "/").head? then dir_path ++ name
  else dir_path ++ bytes "/" ++ name

/-- `none` where printing the value throws, before it is merged. -/
def mergeConfig (config : ConfigManager) (j : Json) : Option ConfigManager :=
  if j.dumpable then some ⟨config.config_.mergePatch j⟩ else none

/-- Only an exception of the stream buffer leaves the function; those of `nlohmann::json` are
caught. -/
def loadFromFile (config : ConfigManager) (path : Bytes) :
    FileContents → Except StdException Unit × ConfigManager
  | .unopened | .unparsable => (.ok (), config)
  | .unreadable e => (.error e, config)
  | .parsed j =>
    (.ok (), (mergeConfig config (.object [(name_without_ext path, j.1)])).getD config)

/-- The file `config.json` of a subdirectory, `none` where `fs::exists` is false. -/
def configFile (entries : List DirEntry) : Option FileContents :=
  KeyedList.find? (bytes "config.json") (entries.map fun e => (e.name, e.contents))

/-- What `loadFromDir` does with it. Here a stream that did not open gives a parse error. -/
def loadConfigFile (config : ConfigManager) (dir_path basename : Bytes) :
    Option FileContents → Except StdException Unit × ConfigManager
  | some (.unreadable e) => (.error e, config)
  | some (.parsed j) =>
    (.ok (), (mergeConfig config (.object [(dir_path, .object [(basename, j.1)])])).getD config)
  | _ => (.ok (), config)

/-- One load after another, unless the first throws. -/
def andThen (r : Except StdException Unit × ConfigManager)
    (next : ConfigManager → Except StdException Unit × ConfigManager) :
    Except StdException Unit × ConfigManager :=
  match r with
  | (.ok (), config) => next config
  | r => r

mutual

/-- `loadFromDir` on a directory with the given entries, in the order of the iterator. -/
def loadFromDir (config : ConfigManager) (dir_path : Bytes) :
    List DirEntry → Bool → Except StdException Unit × ConfigManager
  | [], _ => (.ok (), config)
  | e :: es, recursive =>
    andThen (loadEntry config dir_path e recursive) fun config =>
      loadFromDir config dir_path es recursive

/-- One turn of its loop. -/
def loadEntry (config : ConfigManager) (dir_path : Bytes) :
    DirEntry → Bool → Except StdException Unit × ConfigManager
  | .file name contents, _ =>
    if extension name = bytes ".json" then loadFromFile config (join dir_path name) contents
    else (.ok (), config)
  | .directory name contents entries, recursive =>
    if extension name = bytes ".json" then loadFromFile config (join dir_path name) contents
    else if recursive then
      andThen (loadConfigFile config dir_path name (configFile entries)) fun config =>
        loadFromDir config (join dir_path name) entries true
    else (.ok (), config)

end

/-- A tree of JSON files: no two entries of a directory have one name, and every `.json` file can be
read. -/
inductive JsonTree : List DirEntry → Prop
  | intro {es : List DirEntry} (names : (es.map DirEntry.name).Nodup)
    (readable : ∀ e ∈ es, extension e.name = bytes ".json" → e.contents.Readable)
    (subdirectories : ∀ e ∈ es, JsonTree e.entries) : JsonTree es

theorem jsonTree_nil : JsonTree [] :=
  .intro List.Pairwise.nil (List.forall_mem_nil _) (List.forall_mem_nil _)

theorem jsonTree_cons {e : DirEntry} {es : List DirEntry} :
    JsonTree (e :: es) ↔ e.name ∉ es.map DirEntry.name ∧
      (extension e.name = bytes ".json" → e.contents.Readable) ∧ JsonTree e.entries ∧
      JsonTree es := by
  constructor
  · intro h
    cases h with
    | intro names readable subdirectories =>
      rw [List.map_cons, List.nodup_cons] at names
      rw [List.forall_mem_cons] at readable subdirectories
      exact ⟨names.1, readable.1, subdirectories.1, names.2, readable.2, subdirectories.2⟩
  · intro ⟨hname, hreadable, hentries, hes⟩
    cases hes with
    | intro names readable subdirectories =>
      refine ⟨List.nodup_cons.mpr ⟨hname, names⟩, ?_, ?_⟩
      · exact List.forall_mem_cons.mpr ⟨hreadable, readable⟩
      · exact List.forall_mem_cons.mpr ⟨hentries, subdirectories⟩

/-- A patch as `mergeConfig` merges it. -/
def printed (patch : Json) : List Json := if patch.dumpable then [patch] else []

def filePatches (path : Bytes) : FileContents → List Json
  | .parsed j => printed (.object [(name_without_ext path, j.1)])
  | _ => []

def configFilePatches (dir_path basename : Bytes) : Option FileContents → List Json
  | some (.parsed j) => printed (.object [(dir_path, .object [(basename, j.1)])])
  | _ => []

mutual

/-- All that `loadFromDir` merges into the configuration, in its order. -/
def patches (dir_path : Bytes) : List DirEntry → List Json
  | [] => []
  | e :: es => entryPatches dir_path e ++ patches dir_path es

def entryPatches (dir_path : Bytes) : DirEntry → List Json
  | .file name contents =>
    if extension name = bytes ".json" then filePatches (join dir_path name) contents else []
  | .directory name contents entries =>
    if extension name = bytes ".json" then filePatches (join dir_path name) contents
    else configFilePatches dir_path name (configFile entries) ++
      patches (join dir_path name) entries

end

def mergeAll (config : ConfigManager) (l : List Json) : ConfigManager :=
  ⟨l.foldl Json.mergePatch config.config_⟩

theorem mergeAll_append (config : ConfigManager) (l l' : List Json) :
    mergeAll config (l ++ l') = mergeAll (mergeAll config l) l' := by
  rw [mergeAll, List.foldl_append]
  rfl

theorem mergeConfig_getD (config : ConfigManager) (j : Json) :
    (mergeConfig config j).getD config = mergeAll config (printed j) := by
  unfold mergeConfig printed
  split_ifs
  · rfl
  · rfl

theorem loadFromFile_eq {contents : FileContents} (h : contents.Readable) (config : ConfigManager)
    (path : Bytes) :
    loadFromFile config path contents = (.ok (), mergeAll config (filePatches path contents)) := by
  cases contents with
  | unreadable e => exact h.elim
  | parsed j => exact congrArg (Prod.mk (Except.ok ())) (mergeConfig_getD config _)
  | _ => rfl

theorem loadConfigFile_eq {contents : Option FileContents} (h : ∀ c ∈ contents, c.Readable)
    (config : ConfigManager) (dir_path name : Bytes) :
    loadConfigFile config dir_path name contents =
      (.ok (), mergeAll config (configFilePatches dir_path name contents)) := by
  cases contents with
  | none => rfl
  | some contents =>
    cases contents with
    | unreadable e => exact (h _ rfl).elim
    | parsed j => exact congrArg (Prod.mk (Except.ok ())) (mergeConfig_getD config _)
    | _ => rfl

theorem mem_of_configFile {entries : List DirEntry} {contents : FileContents}
    (h : configFile entries = some contents) :
    ∃ e ∈ entries, e.name = bytes "config.json" ∧ e.contents = contents := by
  obtain ⟨e, he, hpair⟩ := List.mem_map.mp (KeyedList.mem_of_find? h)
  exact ⟨e, he, congrArg Prod.fst hpair, congrArg Prod.snd hpair⟩

theorem JsonTree.configFile {entries : List DirEntry} (h : JsonTree entries) :
    ∀ c ∈ configFile entries, c.Readable := by
  intro c hc
  obtain ⟨e, he, hname, rfl⟩ := mem_of_configFile hc
  cases h with
  | intro _ hreadable _ => exact hreadable e he (by rw [hname]; decide)

/-- No load throws in a tree of JSON files, and together they are one list of patches. -/
theorem loadFromDir_eq {es : List DirEntry} (hes : JsonTree es) (config : ConfigManager)
    (dir_path : Bytes) :
    loadFromDir config dir_path es true = (.ok (), mergeAll config (patches dir_path es)) := by
  induction hes generalizing config dir_path with
  | @intro es hnames hreadable hsub ih =>
    -- the subdirectories are done; what is left is the loop over this directory
    clear hnames
    induction es generalizing config with
    | nil => rfl
    | cons e es ihes =>
      rw [List.forall_mem_cons] at hreadable hsub ih
      have hentry : loadEntry config dir_path e true =
          (.ok (), mergeAll config (entryPatches dir_path e)) := by
        cases e with
        | file name contents =>
          rw [loadEntry, entryPatches]
          split_ifs with hext
          · exact loadFromFile_eq (hreadable.1 hext) config _
          · rfl
        | directory name contents entries =>
          rw [loadEntry, entryPatches]
          split_ifs with hext
          · exact loadFromFile_eq (hreadable.1 hext) config _
          · have hentries : JsonTree entries := hsub.1
            rw [loadConfigFile_eq hentries.configFile, mergeAll_append]
            exact ih.1 _ _
          · exact absurd rfl ‹¬ true = true›
      rw [loadFromDir, hentry, patches, mergeAll_append]
      exact ihes hreadable.2 hsub.2 ih.2 _

/-- The patches are objects. -/
def Objects (l : List Json) : Prop := ∀ p ∈ l, ∃ o, p = .object o

theorem objects_nil : Objects [] := fun _ hp => absurd hp List.not_mem_nil

theorem Objects.append {l l' : List Json} (h : Objects l) (h' : Objects l') : Objects (l ++ l') :=
  fun p hp => (List.mem_append.mp hp).elim (h p) (h' p)

theorem Objects.ne_null {l : List Json} (h : Objects l) : ∀ p ∈ l, p ≠ .null := by
  intro p hp
  obtain ⟨o, rfl⟩ := h p hp
  exact nofun

theorem objects_printed (o : List (Bytes × Json)) : Objects (printed (.object o)) := by
  unfold printed
  split_ifs
  · exact fun p hp => ⟨o, List.mem_singleton.mp hp⟩
  · exact objects_nil

theorem objects_filePatches (path : Bytes) (contents : FileContents) :
    Objects (filePatches path contents) := by
  cases contents with
  | parsed j => exact objects_printed _
  | _ => exact objects_nil

theorem objects_configFilePatches (dir_path name : Bytes) (contents : Option FileContents) :
    Objects (configFilePatches dir_path name contents) := by
  unfold configFilePatches
  split
  · exact objects_printed _
  · exact objects_nil

mutual

theorem objects_patches (dir_path : Bytes) : (es : List DirEntry) → Objects (patches dir_path es)
  | [] => objects_nil
  | e :: es => (objects_entryPatches dir_path e).append (objects_patches dir_path es)

theorem objects_entryPatches (dir_path : Bytes) :
    (e : DirEntry) → Objects (entryPatches dir_path e)
  | .file name contents => by
    rw [entryPatches]
    split_ifs
    · exact objects_filePatches _ contents
    · exact objects_nil
  | .directory name contents entries => by
    rw [entryPatches]
    split_ifs
    · exact objects_filePatches _ contents
    · exact (objects_configFilePatches dir_path name _).append (objects_patches _ entries)

end

mutual

/-- The `.json` paths that are visited, with what reading them gives. -/
def jsonFiles (dir_path : Bytes) : List DirEntry → List (Bytes × FileContents)
  | [] => []
  | e :: es => entryFiles dir_path e ++ jsonFiles dir_path es

def entryFiles (dir_path : Bytes) : DirEntry → List (Bytes × FileContents)
  | .file name contents =>
    if extension name = bytes ".json" then [(join dir_path name, contents)] else []
  | .directory name contents entries =>
    if extension name = bytes ".json" then [(join dir_path name, contents)]
    else jsonFiles (join dir_path name) entries

end

/-- All values that are merged under a key, in the order of the load. -/
def loadedUnder (dir_path : Bytes) (es : List DirEntry) (key : Bytes) : List Json :=
  KeyedList.values key ((patches dir_path es).flatMap Json.members)

mutual

theorem filePatches_subset_patches {dir_path path : Bytes} {contents : FileContents} :
    {es : List DirEntry} → (path, contents) ∈ jsonFiles dir_path es →
      filePatches path contents ⊆ patches dir_path es
  | [], h => absurd h List.not_mem_nil
  | e :: es, h => by
    rw [jsonFiles, List.mem_append] at h
    rw [patches]
    rcases h with he | hes
    · exact List.subset_append_of_subset_left _ (filePatches_subset_entryPatches he)
    · exact List.subset_append_of_subset_right _ (filePatches_subset_patches hes)

theorem filePatches_subset_entryPatches {dir_path path : Bytes} {contents : FileContents} :
    {e : DirEntry} → (path, contents) ∈ entryFiles dir_path e →
      filePatches path contents ⊆ entryPatches dir_path e
  | .file name _, h => by
    rw [entryFiles] at h
    rw [entryPatches]
    split_ifs at h ⊢
    · obtain ⟨rfl, rfl⟩ := Prod.mk.inj (List.mem_singleton.mp h)
      exact List.Subset.refl _
    · exact absurd h List.not_mem_nil
  | .directory name _ entries, h => by
    rw [entryFiles] at h
    rw [entryPatches]
    split_ifs at h ⊢
    · obtain ⟨rfl, rfl⟩ := Prod.mk.inj (List.mem_singleton.mp h)
      exact List.Subset.refl _
    · exact List.subset_append_of_subset_right _ (filePatches_subset_patches h)

end

/-- What a parsed file holds is among the values under its name. -/
theorem mem_loadedUnder {dir_path path : Bytes} {es : List DirEntry}
    {j : {j : Json // j.Ordered}} (hfile : (path, .parsed j) ∈ jsonFiles dir_path es)
    (hprinted : (Json.object [(name_without_ext path, j.1)]).dumpable) :
    j.1 ∈ loadedUnder dir_path es (name_without_ext path) := by
  have hpatch : Json.object [(name_without_ext path, j.1)] ∈ filePatches path (.parsed j) := by
    rw [filePatches, printed, if_pos hprinted]
    exact List.mem_singleton_self _
  have hmem := filePatches_subset_patches hfile hpatch
  apply KeyedList.mem_values_of_mem
  exact List.mem_flatMap.mpr ⟨_, hmem, List.mem_singleton_self _⟩

theorem not_mem_of_find_last_of_none {chars s : Bytes} (h : find_last_of chars s = none) :
    ∀ c ∈ s, c ∉ chars := by
  induction s with
  | nil => exact List.forall_mem_nil _
  | cons c s ih =>
    rw [find_last_of] at h
    cases hs : find_last_of chars s with
    | some pos => simp only [hs, reduceCtorEq] at h
    | none =>
      simp only [hs, ite_eq_right_iff, reduceCtorEq, imp_false] at h
      exact List.forall_mem_cons.mpr ⟨h, ih hs⟩

/-- Behind the last of the characters there is none of them. -/
theorem not_mem_of_find_last_of {chars s : Bytes} {pos : ℕ} (h : find_last_of chars s = some pos) :
    ∀ c ∈ s.drop (pos + 1), c ∉ chars := by
  induction s generalizing pos with
  | nil => exact nomatch h
  | cons c s ih =>
    rw [find_last_of] at h
    cases hs : find_last_of chars s with
    | some last =>
      simp only [hs, Option.some.injEq] at h
      subst h
      exact ih hs
    | none =>
      simp only [hs, Option.ite_none_right_eq_some, Option.some.injEq] at h
      obtain ⟨-, rfl⟩ := h
      exact not_mem_of_find_last_of_none hs

theorem not_mem_basename (path : Bytes) : ∀ c ∈ basename path, c ∉ bytes "/\\" := by
  unfold basename
  cases hlast : find_last_of (bytes "/\\") path with
  | none => exact not_mem_of_find_last_of_none hlast
  | some pos => exact not_mem_of_find_last_of hlast

theorem not_mem_name_without_ext (path : Bytes) :
    ∀ c ∈ name_without_ext path, c ∉ bytes "/" := by
  intro c hc hslash
  have hbasename : c ∈ basename path := by
    unfold name_without_ext at hc
    cases hdot : find_last_of (bytes ".") (basename path) with
    | none => simpa only [hdot] using hc
    | some pos =>
      simp only [hdot] at hc
      exact List.mem_of_mem_take hc
  have hchars : bytes "/" ⊆ bytes "/\\" := by decide
  exact not_mem_basename path c hbasename (hchars hslash)

/-- After a load into an empty configuration, `getValue` on a key without a slash gives all values
under it, merged one after another. -/
theorem getValue_loadFromDir {es : List DirEntry} (hes : JsonTree es) (dir_path : Bytes)
    {key : Bytes} (hkey : ∀ c ∈ key, c ∉ bytes "/") :
    (loadFromDir ⟨.null⟩ dir_path es true).2.getValue key =
      ((loadedUnder dir_path es key).foldl Json.patchMember none).getD .null := by
  rw [loadFromDir_eq hes, getValue, keysOf_of_not_mem hkey, mergeAll, loadedUnder]
  have hget (p : Json) : getKeys p [key] = (p.find? key).getD .null := by
    rw [getKeys]
    cases p.find? key with
    | none => rfl
    | some child => rfl
  rw [hget]
  have hfind := Json.find?_foldl_mergePatch (objects_patches dir_path es) .null key
  exact congrArg (fun x => x.getD .null) hfind

/-- What becomes of a file that is loaded into an empty configuration. Under its name there is the
merge of everything loaded under it, which is what the file holds, unchanged, where nothing else was
loaded under the name and no object in it has a null member. -/
theorem getValue_of_jsonFile {es : List DirEntry} (hes : JsonTree es) {dir_path path : Bytes}
    {j : {j : Json // j.Ordered}} (hfile : (path, .parsed j) ∈ jsonFiles dir_path es)
    (hprinted : (Json.object [(name_without_ext path, j.1)]).dumpable) :
    j.1 ∈ loadedUnder dir_path es (name_without_ext path) ∧
      (loadFromDir ⟨.null⟩ dir_path es true).2.getValue (name_without_ext path) =
        ((loadedUnder dir_path es (name_without_ext path)).foldl Json.patchMember none).getD
          .null ∧
      (loadedUnder dir_path es (name_without_ext path) = [j.1] →
        ((loadFromDir ⟨.null⟩ dir_path es true).2.getValue (name_without_ext path) = j.1 ↔
          j.1.Plain)) := by
  have hvalue := getValue_loadFromDir hes dir_path (not_mem_name_without_ext path)
  refine ⟨mem_loadedUnder hfile hprinted, hvalue, fun halone => ?_⟩
  -- a null that is merged alone leaves no member, which reads as a null
  have hone : (Json.patchMember none j.1).getD .null = Json.mergePatch .null j.1 := by
    cases j.1 with
    | null => rfl
    | _ => rfl
  rw [hvalue, halone, List.foldl_cons, List.foldl_nil, hone]
  exact Json.mergePatch_null_eq_iff j.2

/-- A file that holds one number. -/
def numberFile (name : Bytes) (n : UInt64) : DirEntry :=
  .file name (.parsed ⟨.numberUnsigned n, .leaf nofun⟩)

theorem jsonTree_numberFile (name : Bytes) (n : UInt64) : JsonTree [numberFile name n] :=
  jsonTree_cons.mpr ⟨List.not_mem_nil, fun _ => trivial, jsonTree_nil, jsonTree_nil⟩

/-- A file alone in its directory is read back. -/
theorem getValue_of_jsonFile_one :
    (loadFromDir ⟨.null⟩ (bytes "config") [numberFile (bytes "x.json") 1] true).2.getValue
      (bytes "x") = .numberUnsigned 1 := by
  have hfile : (bytes "config/x.json", .parsed ⟨.numberUnsigned 1, .leaf nofun⟩) ∈
      jsonFiles (bytes "config") [numberFile (bytes "x.json") 1] := List.mem_cons_self
  have h := getValue_of_jsonFile (jsonTree_numberFile (bytes "x.json") 1) hfile (by decide)
  have hplain : Json.Plain (.numberUnsigned 1) := .leaf nofun
  exact (h.2.2 rfl).mpr hplain

/-- What reading a directory as a file gives. -/
def isDirectory : FileContents :=
  .unreadable ⟨bytes "basic_filebuf::underflow error reading the file: Is a directory"⟩

/-- Two subdirectories with one file of the same name in each. -/
def sameName : List DirEntry :=
  [.directory (bytes "a") isDirectory [numberFile (bytes "x.json") 1],
    .directory (bytes "b") isDirectory [numberFile (bytes "x.json") 2]]

theorem jsonTree_sameName : JsonTree sameName := by
  have hb : JsonTree [.directory (bytes "b") isDirectory [numberFile (bytes "x.json") 2]] :=
    jsonTree_cons.mpr ⟨List.not_mem_nil, fun hext => absurd hext (by decide),
      jsonTree_numberFile _ 2, jsonTree_nil⟩
  exact jsonTree_cons.mpr ⟨by decide, fun hext => absurd hext (by decide),
    jsonTree_numberFile _ 1, hb⟩

/-- Of the two files of one name no key path gives the first one. -/
theorem sameName_not_reachable :
    JsonTree sameName ∧
      (bytes "config/a/x.json", .parsed ⟨.numberUnsigned 1, .leaf nofun⟩) ∈
        jsonFiles (bytes "config") sameName ∧
      ∀ key_path, (loadFromDir ⟨.null⟩ (bytes "config") sameName true).2.getValue key_path ≠
        .numberUnsigned 1 := by
  refine ⟨jsonTree_sameName, List.mem_cons_self, fun key_path h => ?_⟩
  have hconfig : (loadFromDir ⟨.null⟩ (bytes "config") sameName true).2 =
      ⟨.object [(bytes "x", .numberUnsigned 2)]⟩ := rfl
  -- below a number there is nothing to find
  have hbelow (n : UInt64) (keys : List Bytes) : getKeys (.numberUnsigned n) keys =
      .numberUnsigned n ∨ getKeys (.numberUnsigned n) keys = .null := by
    cases keys with
    | nil => exact Or.inl rfl
    | cons key keys => exact Or.inr rfl
  rw [hconfig, getValue, keysOf_eq_cons, getKeys, Json.find?, KeyedList.find?] at h
  split_ifs at h
  · have hvalue : getKeys (.numberUnsigned 2) (keysOf key_path).1.tail = .numberUnsigned 1 := h
    rcases hbelow 2 (keysOf key_path).1.tail with hn | hn
    · rw [hvalue] at hn
      exact absurd (Json.numberUnsigned.inj hn) (by decide)
    · rw [hvalue] at hn
      cases hn
  · cases h

end ConfigManager

end OpenAPT
