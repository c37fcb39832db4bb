import OpenAPT.ModuleLoader

/-! `iterator_modules_dir`, which has one handler around the loop over all modules. -/
namespace OpenAPT

/-- What `read_config_file` finds. -/
inductive InfoFile
  | notOpen
  | unreadable (e : StdException)
  | parsed (config : Json)

/-- What the loop finds at an entry of the modules directory: whether it is a directory, whether an
`info.json` exists in it, and the content of that file. -/
structure ModulesEntry where
  path : Bytes
  is_directory : Except StdException Bool
  existsInfo : Except StdException Bool
  info : InfoFile

/-- The modules directory: how the calls before the loop end, the entries below it in the order of
their enumeration, each of them once, and how the enumeration ends. -/
structure ModulesDir where
  existsDir : Except StdException Bool
  is_directory : Except StdException Bool
  create_directory : Except StdException Unit
  entries : List ModulesEntry
  nodup : (entries.map ModulesEntry.path).Nodup
  iterated : Except StdException Unit

def errorObject (text : Bytes) : Json := .object [(bytes "error", .string text)]

def read_config_file : InfoFile → Json
  | .notOpen => errorObject (bytes "Failed to open config file")
  | .unreadable _ => errorObject (bytes "Failed to read config file")
  | .parsed config => config

/-- `config[dir][key] = value`. -/
def Json.setEntry (config : Json) (dir key : Bytes) (value : Json) : Except StdException Json := do
  let node ← config.index dir
  let entry ← ((node.find? dir).getD .null).index key
  pure (node.store dir (entry.store key value))

/-- `config[dir][key] = module_config[key]`, with `module_config` after it. -/
def Json.copyMember (module_config config : Json) (dir key : Bytes) :
    Except StdException (Json × Json) := do
  let module_config ← module_config.index key
  let config ← config.setEntry dir key ((module_config.find? key).getD .null)
  pure (module_config, config)

namespace ModulesEntry

def info_file (e : ModulesEntry) : Bytes := e.path ++ bytes "/info.json"

/-- The body of the loop for a module. -/
def append (e : ModulesEntry) (config : Json) : Except StdException Json := do
  let config ← config.setEntry e.path (bytes "path") (.string e.path)
  let config ← config.setEntry e.path (bytes "config") (.string e.info_file)
  let module_config := read_config_file e.info
  let (module_config, config) ← module_config.copyMember config e.path (bytes "name")
  let (module_config, config) ← module_config.copyMember config e.path (bytes "version")
  let (module_config, config) ← module_config.copyMember config e.path (bytes "author")
  let license ← module_config.valueString (bytes "license") []
  let config ← config.setEntry e.path (bytes "license") (.string license)
  let description ← module_config.valueString (bytes "description") []
  config.setEntry e.path (bytes "description") (.string description)

/-- One turn of the loop. -/
def visit (e : ModulesEntry) (config : Json) : Except StdException Json := do
  if ← e.is_directory then
    if ← e.existsInfo then e.append config else pure config
  else pure config

end ModulesEntry

namespace ModulesDir

/-- The first block. -/
def prepare (d : ModulesDir) : Except StdException Unit := do
  if ← d.existsDir then
    if ← d.is_directory then pure () else d.create_directory
  else d.create_directory

/-- The second block. -/
def iterate (d : ModulesDir) : Except StdException Json := do
  let config ← d.entries.foldlM (fun config e => e.visit config) .null
  d.iterated
  pure config

def iterator_modules_dir (d : ModulesDir) : Json :=
  match d.prepare with
  | .error _ => errorObject (bytes "Failed to create modules directory")
  | .ok () =>
    match d.iterate with
    | .error _ => errorObject (bytes "Failed to iterate modules directory")
    | .ok config =>
      if config.empty then .object [(bytes "message", .string (bytes "No module found"))]
      else config

end ModulesDir

/-- A well-formed module description. -/
structure Json.Describes (info : Json) (name version author : Bytes) : Prop where
  name : info.find? (bytes "name") = some (.string name)
  version : info.find? (bytes "version") = some (.string version)
  author : info.find? (bytes "author") = some (.string author)
  optional : ∀ key ∈ [bytes "license", bytes "description"], ∀ j, info.find? key = some j →
    ∃ s, j = .string s

/-- The entry is a directory with a well-formed description. -/
def ModulesEntry.IsModule (e : ModulesEntry) (name version author : Bytes) : Prop :=
  e.is_directory = .ok true ∧ e.existsInfo = .ok true ∧
    ∃ config, e.info = .parsed config ∧ config.Describes name version author

/-- The result has the module with its path, name, version and author. -/
def ModulesEntry.Listed (e : ModulesEntry) (name version author : Bytes) (result : Json) : Prop :=
  Json.tree.get result [e.path, bytes "path"] = some (.string e.path) ∧
  Json.tree.get result [e.path, bytes "name"] = some (.string name) ∧
  Json.tree.get result [e.path, bytes "version"] = some (.string version) ∧
  Json.tree.get result [e.path, bytes "author"] = some (.string author)

/-- Every well-formed module is listed. -/
def ModulesDir.ListsModules (d : ModulesDir) : Prop :=
  ∀ e ∈ d.entries, ∀ name version author, e.IsModule name version author →
    e.Listed name version author d.iterator_modules_dir

/-- An object, or null, which becomes one. -/
def Json.IsTable (j : Json) : Prop := j = .null ∨ ∃ o, j = .object o

/-- A value that the loop can read: the license and the description are texts if they are there. -/
def Json.Readable (j : Json) : Prop :=
  j.IsTable ∧
    ∀ key ∈ [bytes "license", bytes "description"], ∀ v, j.find? key = some v → ∃ s, v = .string s

/-- The entry is no directory, has no `info.json`, or has one that can be read, if only as an error
message. -/
def ModulesEntry.Harmless (e : ModulesEntry) : Prop :=
  e.is_directory = .ok false ∨ e.is_directory = .ok true ∧
    (e.existsInfo = .ok false ∨ e.existsInfo = .ok true ∧ (read_config_file e.info).Readable)

/-- No call of the file system fails, and every entry is harmless. -/
structure ModulesDir.AllHarmless (d : ModulesDir) : Prop where
  prepared : d.prepare = .ok ()
  entries : ∀ e ∈ d.entries, e.Harmless
  iterated : d.iterated = .ok ()

namespace Json

/-- A table of tables. -/
def TwoLevels (j : Json) : Prop := j.IsTable ∧ ∀ key child, j.find? key = some child → child.IsTable

theorem ok_bind {α β : Type} (a : α) (f : α → Except StdException β) :
    (Except.ok a >>= f) = f a := rfl

theorem error_bind {α β : Type} (e : StdException) (f : α → Except StdException β) :
    (Except.error e >>= f) = Except.error e := rfl

theorem index_of_isTable {j : Json} (h : j.IsTable) (key : Bytes) :
    ∃ o, j.index key = .ok (.object o) := by
  rcases h with rfl | ⟨o, rfl⟩
  · exact ⟨_, rfl⟩
  · exact ⟨_, rfl⟩

theorem index_of_not_isTable {j : Json} (h : ¬j.IsTable) (key : Bytes) :
    ∃ e, j.index key = .error e := by
  cases j with
  | null => exact absurd (Or.inl rfl) h
  | object o => exact absurd (Or.inr ⟨o, rfl⟩) h
  | _ => exact ⟨_, rfl⟩

theorem find?_index_of_ne {j j' : Json} {key other : Bytes} (h : j.index key = .ok j')
    (hne : other ≠ key) : j'.find? other = j.find? other := by
  cases j with
  | null =>
    obtain rfl := Except.ok.inj h
    simp only [find?, KeyedList.find?, hne.symm, ↓reduceIte]
  | object o =>
    obtain rfl := Except.ok.inj h
    exact KeyedList.find?_emplace_of_ne hne null o
  | _ => cases h

/-- The member after `operator[]` is the one from before, or the new null. -/
theorem find?_index_self {j j' : Json} {key : Bytes} (h : j.index key = .ok j') :
    j'.find? key = some ((j.find? key).getD .null) := by
  cases j with
  | null =>
    obtain rfl := Except.ok.inj h
    simp only [find?, KeyedList.find?, ↓reduceIte, Option.getD_none]
  | object o =>
    obtain rfl := Except.ok.inj h
    simp only [find?, KeyedList.find?_emplace, ↓reduceIte]
    cases KeyedList.find? key o <;> rfl
  | _ => cases h

/-- A write to a table of tables succeeds, and sets the path of two keys. -/
theorem setEntry_of_twoLevels {config : Json} (h : config.TwoLevels) (dir key : Bytes)
    (value : Json) : ∃ config', config.setEntry dir key value = .ok config' ∧ config'.TwoLevels ∧
      tree.set value config [dir, key] = some config' := by
  obtain ⟨node, hnode⟩ := index_of_isTable h.1 dir
  have hchild : ((config.find? dir).getD .null).IsTable := by
    cases hfind : config.find? dir with
    | none => exact Or.inl rfl
    | some child => exact h.2 dir child hfind
  obtain ⟨entry, hentry⟩ := index_of_isTable hchild key
  have hfind : (Json.object node).find? dir = some ((config.find? dir).getD .null) :=
    find?_index_self hnode
  refine ⟨(Json.object node).store dir ((Json.object entry).store key value), ?_, ⟨?_, ?_⟩, ?_⟩
  · unfold setEntry
    rw [hnode]
    show ((((Json.object node).find? dir).getD .null).index key >>= fun entry => _) = _
    rw [hfind, Option.getD_some, hentry]
    rfl
  · exact Or.inr ⟨_, rfl⟩
  · intro other child hother
    by_cases hne : other = dir
    · rw [hne, find?_index_store_self hnode] at hother
      obtain rfl := Option.some.inj hother
      exact Or.inr ⟨_, rfl⟩
    · rw [find?_index_store_of_ne hnode hne] at hother
      exact h.2 other child hother
  · rw [KeyedTree.set_cons_eq_some]
    refine ⟨(Json.object entry).store key value, ?_, ?_⟩
    · show ((((config.find? dir).getD .null).index key).toOption.map _) = _
      rw [hentry]
      rfl
    · show ((config.index dir).toOption.map _) = _
      rw [hnode]
      rfl

/-- What is read after a write along another path of two keys. -/
theorem get_setEntry {config config' : Json} {dir key : Bytes} {value : Json}
    (h : tree.set value config [dir, key] = some config') (dir' key' : Bytes) :
    tree.get config' [dir', key'] =
      if dir' = dir ∧ key' = key then some value else tree.get config [dir', key'] := by
  split_ifs with hsame
  · rw [hsame.1, hsame.2]
    exact tree.get_set h
  · have hbranch (a b c d : Bytes) (hne : ¬(a = c ∧ b = d)) : ¬[a, b] <+: [c, d] := by
      simpa only [List.cons_prefix_cons, List.nil_prefix, and_true] using hne
    refine tree.get_set_of_branch (fun _ => rfl) h (hbranch _ _ _ _ hsame) ?_
    exact hbranch _ _ _ _ fun hsame' => hsame ⟨hsame'.1.symm, hsame'.2.symm⟩

/-- From `config` to `config'` only members of `dir` were written, and `values` are there now. -/
structure Wrote (dir : Bytes) (values : List (Bytes × Json)) (config config' : Json) : Prop where
  twoLevels : config'.TwoLevels
  others : ∀ dir' ≠ dir, ∀ key, tree.get config' [dir', key] = tree.get config [dir', key]
  values : ∀ e ∈ values, tree.get config' [dir, e.1] = some e.2

theorem wrote_nil {config : Json} (h : config.TwoLevels) (dir : Bytes) :
    Wrote dir [] config config :=
  ⟨h, fun _ _ _ => rfl, List.forall_mem_nil _⟩

theorem Wrote.setEntry {config config' : Json} {dir : Bytes} {values : List (Bytes × Json)}
    (h : Wrote dir values config config') {key : Bytes} (hkey : key ∉ values.map Prod.fst)
    (value : Json) : ∃ config'', config'.setEntry dir key value = .ok config'' ∧
      Wrote dir ((key, value) :: values) config config'' := by
  obtain ⟨config'', hentry, htwo, hset⟩ := setEntry_of_twoLevels h.twoLevels dir key value
  refine ⟨config'', hentry, htwo, fun dir' hdir key' => ?_, ?_⟩
  · rw [get_setEntry hset, if_neg fun hsame => hdir hsame.1, h.others dir' hdir]
  · rw [List.forall_mem_cons]
    refine ⟨?_, fun e he => ?_⟩
    · rw [get_setEntry hset, if_pos ⟨rfl, rfl⟩]
    · have hne : e.1 ≠ key := fun hsame => hkey (hsame ▸ List.mem_map_of_mem he)
      rw [get_setEntry hset, if_neg fun hsame => hne hsame.2, h.values e he]

theorem Wrote.copyMember {config config' module_config : Json} {dir : Bytes}
    {values : List (Bytes × Json)} (h : Wrote dir values config config')
    (htable : module_config.IsTable) {key : Bytes} (hkey : key ∉ values.map Prod.fst) :
    ∃ o config'', module_config.copyMember config' dir key = .ok (.object o, config'') ∧
      (∀ other ≠ key, (object o).find? other = module_config.find? other) ∧
      Wrote dir ((key, (module_config.find? key).getD .null) :: values) config config'' := by
  obtain ⟨o, hindex⟩ := index_of_isTable htable key
  have hself := find?_index_self hindex
  obtain ⟨config'', hset, hwrote⟩ := h.setEntry hkey ((module_config.find? key).getD .null)
  refine ⟨o, config'', ?_, fun other hne => ?_, hwrote⟩
  · unfold Json.copyMember
    rw [hindex]
    show (config'.setEntry dir key (((Json.object o).find? key).getD .null) >>= fun config => _) = _
    rw [hself, Option.getD_some, hset]
    rfl
  · exact find?_index_of_ne hindex hne

/-- `value` of a table throws exactly if the member is there and no text. -/
theorem valueString_cases (o : List (Bytes × Json)) (key default : Bytes) :
    (∃ s, (object o).valueString key default = .ok s) ∧
      (∀ v, (object o).find? key = some v → ∃ s, v = .string s) ∨
    (∃ e, (object o).valueString key default = .error e) ∧
      ¬∀ v, (object o).find? key = some v → ∃ s, v = .string s := by
  simp only [valueString, find?]
  cases hfind : KeyedList.find? key o with
  | none =>
    refine Or.inl ⟨⟨default, rfl⟩, fun v hv => ?_⟩
    cases hv
  | some v =>
    cases v with
    | string s =>
      refine Or.inl ⟨⟨s, rfl⟩, fun v hv => ⟨s, ?_⟩⟩
      exact (Option.some.inj hv).symm
    | _ =>
      refine Or.inr ⟨⟨_, rfl⟩, fun hall => ?_⟩
      obtain ⟨s, hs⟩ := hall _ rfl
      cases hs

end Json

namespace ModulesEntry

variable {e : ModulesEntry} {config : Json}

/-- What the body of the loop writes of a module before it reads the license. -/
def required (e : ModulesEntry) (info : Json) : List (Bytes × Json) :=
  [(bytes "author", (info.find? (bytes "author")).getD .null),
    (bytes "version", (info.find? (bytes "version")).getD .null),
    (bytes "name", (info.find? (bytes "name")).getD .null),
    (bytes "config", .string e.info_file), (bytes "path", .string e.path)]

/-- The rest of the body, with the texts of the license and the description. -/
def appendOptional (e : ModulesEntry) (module_config config : Json) : Except StdException Json := do
  let license ← module_config.valueString (bytes "license") []
  let config ← config.setEntry e.path (bytes "license") (.string license)
  let description ← module_config.valueString (bytes "description") []
  config.setEntry e.path (bytes "description") (.string description)

theorem append_required (hconfig : config.TwoLevels)
    (htable : (read_config_file e.info).IsTable) : ∃ o config',
      (∀ key ∈ [bytes "license", bytes "description"],
        (Json.object o).find? key = (read_config_file e.info).find? key) ∧
      Json.Wrote e.path (e.required (read_config_file e.info)) config config' ∧
      e.append config = e.appendOptional (.object o) config' := by
  obtain ⟨c₁, h₁, w₁⟩ := (Json.wrote_nil hconfig e.path).setEntry
    (show bytes "path" ∉ [] from List.not_mem_nil) (.string e.path)
  obtain ⟨c₂, h₂, w₂⟩ := w₁.setEntry (show bytes "config" ∉ [bytes "path"] by decide)
    (.string e.info_file)
  obtain ⟨m₃, c₃, h₃, o₃, w₃⟩ := w₂.copyMember htable
    (show bytes "name" ∉ [bytes "config", bytes "path"] by decide)
  obtain ⟨m₄, c₄, h₄, o₄, w₄⟩ := w₃.copyMember (Or.inr ⟨m₃, rfl⟩)
    (show bytes "version" ∉ [bytes "name", bytes "config", bytes "path"] by decide)
  obtain ⟨m₅, c₅, h₅, o₅, w₅⟩ := w₄.copyMember (Or.inr ⟨m₄, rfl⟩)
    (show bytes "author" ∉ [bytes "version", bytes "name", bytes "config", bytes "path"] by decide)
  -- reading a member adds no other, so all three are those of the description
  have hauthor : (Json.object m₄).find? (bytes "author") =
      (read_config_file e.info).find? (bytes "author") := by
    rw [o₄ _ (by decide), o₃ _ (by decide)]
  rw [hauthor, o₃ _ (by decide)] at w₅
  refine ⟨m₅, c₅, fun key hkey => ?_, w₅, ?_⟩
  · have hne : key ≠ bytes "author" ∧ key ≠ bytes "version" ∧ key ≠ bytes "name" := by
      revert key
      decide
    rw [o₅ _ hne.1, o₄ _ hne.2.1, o₃ _ hne.2.2]
  · simp only [append, appendOptional, h₁, h₂, h₃, h₄, h₅, Json.ok_bind]

/-- A description that can be read is appended with all its required members. -/
theorem append_of_readable (hconfig : config.TwoLevels)
    (h : (read_config_file e.info).Readable) : ∃ config' values,
      e.append config = .ok config' ∧ Json.Wrote e.path values config config' ∧
        ∀ m ∈ e.required (read_config_file e.info), m ∈ values := by
  obtain ⟨o, c₁, hoptional, w₁, happend⟩ := append_required hconfig h.1
  rw [happend, appendOptional]
  have htext (key : Bytes) (hkey : key ∈ [bytes "license", bytes "description"]) :
      ∃ s, (Json.object o).valueString key [] = .ok s := by
    rcases Json.valueString_cases o key [] with ⟨hs, -⟩ | ⟨-, hnot⟩
    · exact hs
    · rw [hoptional key hkey] at hnot
      exact absurd (h.2 key hkey) hnot
  obtain ⟨license, hlicense⟩ := htext (bytes "license") (by decide)
  obtain ⟨description, hdescription⟩ := htext (bytes "description") (by decide)
  obtain ⟨c₂, h₂, w₂⟩ := w₁.setEntry
    (show bytes "license" ∉ [bytes "author", bytes "version", bytes "name", bytes "config",
      bytes "path"] by decide) (.string license)
  obtain ⟨c₃, h₃, w₃⟩ := w₂.setEntry
    (show bytes "description" ∉ [bytes "license", bytes "author", bytes "version", bytes "name",
      bytes "config", bytes "path"] by decide) (.string description)
  refine ⟨c₃, _, ?_, w₃, fun m hm => List.mem_cons_of_mem _ (List.mem_cons_of_mem _ hm)⟩
  simp only [hlicense, hdescription, h₂, h₃, Json.ok_bind]

theorem append_of_not_readable (hconfig : config.TwoLevels)
    (h : ¬(read_config_file e.info).Readable) : ∃ error, e.append config = .error error := by
  by_cases htable : (read_config_file e.info).IsTable
  · obtain ⟨o, c₁, hoptional, w₁, happend⟩ := append_required hconfig htable
    rw [happend, appendOptional]
    rcases Json.valueString_cases o (bytes "license") [] with
      ⟨⟨license, hlicense⟩, htext⟩ | ⟨⟨error, herror⟩, -⟩
    · obtain ⟨c₂, h₂, -⟩ := w₁.setEntry
        (show bytes "license" ∉ [bytes "author", bytes "version", bytes "name", bytes "config",
          bytes "path"] by decide) (.string license)
      rcases Json.valueString_cases o (bytes "description") [] with
        ⟨-, htext'⟩ | ⟨⟨error, herror⟩, -⟩
      · -- then both are texts, or missing
        refine absurd ⟨htable, fun key hkey => ?_⟩ h
        rw [← hoptional key hkey]
        rcases List.mem_pair.mp hkey with rfl | rfl
        · exact htext
        · exact htext'
      · refine ⟨error, ?_⟩
        simp only [hlicense, h₂, herror, Json.ok_bind, Json.error_bind]
    · refine ⟨error, ?_⟩
      simp only [herror, Json.error_bind]
  · -- the name is the first member that is looked up
    obtain ⟨c₁, h₁, w₁⟩ := (Json.wrote_nil hconfig e.path).setEntry
      (show bytes "path" ∉ [] from List.not_mem_nil) (.string e.path)
    obtain ⟨c₂, h₂, -⟩ := w₁.setEntry (show bytes "config" ∉ [bytes "path"] by decide)
      (.string e.info_file)
    obtain ⟨error, herror⟩ := Json.index_of_not_isTable htable (bytes "name")
    refine ⟨error, ?_⟩
    simp only [append, h₁, h₂, Json.copyMember, herror, Json.ok_bind, Json.error_bind]

theorem listed_of_wrote {config' : Json} {values : List (Bytes × Json)}
    (hwrote : Json.Wrote e.path values config config')
    (hvalues : ∀ m ∈ e.required (read_config_file e.info), m ∈ values)
    {name version author : Bytes} (h : e.IsModule name version author) :
    e.Listed name version author config' := by
  obtain ⟨-, -, info, hinfo, hdescribes⟩ := h
  have hread (key value : Bytes) (hfind : info.find? (key) = some (.string value))
      (hkey : (key, (info.find? key).getD .null) ∈ e.required info) :
      Json.tree.get config' [e.path, key] = some (.string value) := by
    rw [hinfo] at hvalues
    have hget := hwrote.values _ (hvalues _ hkey)
    rwa [hfind, Option.getD_some] at hget
  refine ⟨?_, hread _ name hdescribes.name ?_, hread _ version hdescribes.version ?_,
    hread _ author hdescribes.author ?_⟩
  · exact hwrote.values (bytes "path", .string e.path) (hvalues _ (by simp [required]))
  all_goals simp [required]

/-- A turn of the loop for a harmless entry: a module is listed after it, and no other entry is
touched. -/
theorem visit_of_harmless (hconfig : config.TwoLevels) (h : e.Harmless) : ∃ config' values,
    e.visit config = .ok config' ∧ Json.Wrote e.path values config config' ∧
      ∀ name version author, e.IsModule name version author →
        e.Listed name version author config' := by
  rcases h with hdir | ⟨hdir, hinfo | ⟨hinfo, hread⟩⟩
  · refine ⟨config, [], ?_, Json.wrote_nil hconfig e.path, fun _ _ _ hmodule => ?_⟩
    · rw [visit, hdir]
      rfl
    · cases hdir.symm.trans hmodule.1
  · refine ⟨config, [], ?_, Json.wrote_nil hconfig e.path, fun _ _ _ hmodule => ?_⟩
    · rw [visit, hdir, hinfo]
      rfl
    · cases hinfo.symm.trans hmodule.2.1
  · obtain ⟨config', values, happend, hwrote, hvalues⟩ := append_of_readable hconfig hread
    refine ⟨config', values, ?_, hwrote, fun _ _ _ => listed_of_wrote hwrote hvalues⟩
    rw [visit, hdir, hinfo]
    exact happend

theorem visit_of_not_harmless (hconfig : config.TwoLevels) (h : ¬e.Harmless) :
    ∃ error, e.visit config = .error error := by
  unfold visit
  cases hdir : e.is_directory with
  | error error => exact ⟨error, rfl⟩
  | ok dir =>
    cases dir with
    | false => exact absurd (Or.inl hdir) h
    | true =>
      cases hinfo : e.existsInfo with
      | error error => exact ⟨error, rfl⟩
      | ok there =>
        cases there with
        | false => exact absurd (Or.inr ⟨hdir, Or.inl hinfo⟩) h
        | true =>
          exact append_of_not_readable hconfig fun hread =>
            h (Or.inr ⟨hdir, Or.inr ⟨hinfo, hread⟩⟩)

/-- The loop over harmless entries lists all modules among them. -/
theorem foldlM_visit_of_harmless {entries : List ModulesEntry}
    (hnodup : (entries.map path).Nodup) (hharmless : ∀ e ∈ entries, e.Harmless)
    (hconfig : config.TwoLevels) : ∃ config',
      entries.foldlM (fun config e => e.visit config) config = .ok config' ∧
      (∀ dir ∉ entries.map path, ∀ key,
        Json.tree.get config' [dir, key] = Json.tree.get config [dir, key]) ∧
      ∀ e ∈ entries, ∀ name version author, e.IsModule name version author →
        e.Listed name version author config' := by
  induction entries generalizing config with
  | nil => exact ⟨config, rfl, fun _ _ _ => rfl, List.forall_mem_nil _⟩
  | cons e entries ih =>
    rw [List.map_cons, List.nodup_cons] at hnodup
    rw [List.forall_mem_cons] at hharmless
    obtain ⟨c, values, hvisit, hwrote, hlisted⟩ := visit_of_harmless hconfig hharmless.1
    obtain ⟨config', hfold, hothers, hrest⟩ := ih hnodup.2 hharmless.2 hwrote.twoLevels
    refine ⟨config', ?_, fun dir hdir key => ?_, ?_⟩
    · rw [List.foldlM_cons, hvisit]
      exact hfold
    · rw [List.map_cons, List.mem_cons, not_or] at hdir
      rw [hothers dir hdir.2, hwrote.others dir hdir.1]
    · rw [List.forall_mem_cons]
      refine ⟨fun name version author hmodule => ?_, hrest⟩
      -- the later turns write to other paths
      have hkeep := hothers e.path hnodup.1
      unfold Listed
      simp only [hkeep]
      exact hlisted name version author hmodule

theorem foldlM_visit_of_not_harmless {entries : List ModulesEntry}
    (h : ∃ e ∈ entries, ¬e.Harmless) (hconfig : config.TwoLevels) :
    ∃ error, entries.foldlM (fun config e => e.visit config) config = .error error := by
  induction entries generalizing config with
  | nil =>
    obtain ⟨e, he, -⟩ := h
    cases he
  | cons e entries ih =>
    by_cases hharmless : e.Harmless
    · obtain ⟨c, values, hvisit, hwrote, -⟩ := visit_of_harmless hconfig hharmless
      obtain ⟨e', he', hnot⟩ := h
      have hmem : e' ∈ entries := by
        refine (List.mem_cons.mp he').resolve_left ?_
        rintro rfl
        exact hnot hharmless
      obtain ⟨error, herror⟩ := ih ⟨e', hmem, hnot⟩ hwrote.twoLevels
      refine ⟨error, ?_⟩
      rw [List.foldlM_cons, hvisit]
      exact herror
    · obtain ⟨error, herror⟩ := visit_of_not_harmless hconfig hharmless
      refine ⟨error, ?_⟩
      rw [List.foldlM_cons, herror]
      rfl

end ModulesEntry

namespace ModulesDir

variable {d : ModulesDir}

theorem twoLevels_null : Json.null.TwoLevels := ⟨Or.inl rfl, nofun⟩

/-- Where something fails, the result is an error message only. -/
theorem iterator_modules_dir_of_not (h : ¬d.AllHarmless) :
    ∃ text, d.iterator_modules_dir = errorObject text := by
  unfold iterator_modules_dir
  cases hprepare : d.prepare with
  | error error => exact ⟨_, rfl⟩
  | ok u =>
    have herror : ∃ error, d.iterate = .error error := by
      unfold iterate
      by_cases hentries : ∃ e ∈ d.entries, ¬e.Harmless
      · obtain ⟨error, hfold⟩ :=
          ModulesEntry.foldlM_visit_of_not_harmless hentries twoLevels_null
        exact ⟨error, by rw [hfold]; rfl⟩
      · have hharmless : ∀ e ∈ d.entries, e.Harmless := by
          intro e he
          by_contra hnot
          exact hentries ⟨e, he, hnot⟩
        obtain ⟨config, hfold, -⟩ :=
          ModulesEntry.foldlM_visit_of_harmless d.nodup hharmless twoLevels_null
        rw [hfold]
        cases hiterated : d.iterated with
        | error error => exact ⟨error, rfl⟩
        | ok u => exact absurd ⟨hprepare, hharmless, hiterated⟩ h
    obtain ⟨error, hiterate⟩ := herror
    rw [hiterate]
    exact ⟨_, rfl⟩

/-- An error message has no entries of modules. -/
theorem not_listed_errorObject (e : ModulesEntry) (name version author text : Bytes) :
    ¬e.Listed name version author (errorObject text) := by
  rintro ⟨hpath, -⟩
  obtain ⟨entry, hentry, hpath⟩ := Option.bind_eq_some_iff.mp hpath
  obtain rfl : entry = .string text := by
    have hmem := KeyedList.mem_of_find? hentry
    rw [List.mem_singleton, Prod.mk.injEq] at hmem
    exact hmem.2
  cases hpath

/-- Where nothing fails, the result has every module. -/
theorem listed_of_allHarmless (h : d.AllHarmless) : d.ListsModules := by
  obtain ⟨config, hfold, -, hlisted⟩ :=
    ModulesEntry.foldlM_visit_of_harmless d.nodup h.entries twoLevels_null
  have hiterate : d.iterate = .ok config := by
    rw [iterate, hfold, h.iterated]
    rfl
  intro e he name version author hmodule
  have hentry := hlisted e he name version author hmodule
  -- a table with an entry is not replaced by an error message
  have hnonempty : config.empty = false := by
    obtain ⟨entry, hfind, -⟩ := Option.bind_eq_some_iff.mp hentry.1
    cases config with
    | object o =>
      cases o with
      | nil => cases hfind
      | cons m o => rfl
    | _ => cases hfind
  simp only [iterator_modules_dir, h.prepared, hiterate, hnonempty, Bool.false_eq_true, ↓reduceIte]
  exact hentry

/-- Every well-formed module is listed exactly if there is none, or if nothing at all fails. -/
theorem listsModules_iff (d : ModulesDir) : d.ListsModules ↔
    d.AllHarmless ∨ ∀ e ∈ d.entries, ∀ name version author, ¬e.IsModule name version author := by
  constructor
  · intro h
    by_cases hall : d.AllHarmless
    · exact Or.inl hall
    · obtain ⟨text, htext⟩ := iterator_modules_dir_of_not hall
      refine Or.inr fun e he name version author hmodule => ?_
      have hlisted := h e he name version author hmodule
      rw [htext] at hlisted
      exact not_listed_errorObject e name version author text hlisted
  · rintro (hall | hnone)
    · exact listed_of_allHarmless hall
    · intro e he name version author hmodule
      exact absurd hmodule (hnone e he name version author)

/-- A good module, and one whose `info.json` is a list. -/
def oneBad : ModulesDir where
  existsDir := .ok true
  is_directory := .ok true
  create_directory := .ok ()
  entries := [
    ⟨bytes "modules/camera", .ok true, .ok true, .parsed (.object
      [(bytes "author", .string (bytes "A")), (bytes "name", .string (bytes "camera")),
        (bytes "version", .string (bytes "1.0"))])⟩,
    ⟨bytes "modules/focuser", .ok true, .ok true, .parsed (.array [])⟩]
  nodup := by decide
  iterated := .ok ()

theorem not_listsModules_oneBad : ¬oneBad.ListsModules := by
  intro h
  have hdescribes : (Json.object
      [(bytes "author", .string (bytes "A")), (bytes "name", .string (bytes "camera")),
        (bytes "version", .string (bytes "1.0"))]).Describes (bytes "camera") (bytes "1.0")
      (bytes "A") := by
    refine ⟨rfl, rfl, rfl, fun key hkey j hj => ?_⟩
    rcases List.mem_pair.mp hkey with rfl | rfl <;> cases hj
  have hlisted := h _ List.mem_cons_self (bytes "camera") (bytes "1.0") (bytes "A")
    ⟨rfl, rfl, _, rfl, hdescribes⟩
  cases hlisted.1

end ModulesDir

end OpenAPT
