import Mathlib.Logic.Function.Basic
import OpenAPT.Task

/-! `ServerLauncher::run` up to the start of the server: the checks of the resources, of the
processes the server depends on and of its configuration file. -/
namespace OpenAPT

/-- A file by its name. The status of an inaccessible one cannot be asked for: the name is too long,
or it leads through a directory that may not be searched. -/
inductive FileState
  | missing
  | inaccessible (e : StdException)
  | unreadable
  | readable (contents : Bytes)

/-- What the launcher takes from elsewhere: the SHA-256 of a file as hexadecimal digits, the number
of threads of the pool, in which order the pool runs the downloads, the body a server answers a
request with (`none` where the request fails), which files can be opened for writing, the result of
`system`, the JSON parser, and the conversion of a float to an `int`. -/
structure LauncherEnvironment where
  sha256 : Bytes → Bytes
  hardware_concurrency : ℕ
  order : List (Bytes × Bytes) → List (Bytes × Bytes)
  order_perm : ∀ l, (order l).Perm l
  Get : Bytes → Bytes → Option Bytes
  opens : Bytes → Bool
  system : Bytes → Int32
  parse : Bytes → Except StdException Json
  floatToInt : UInt64 → Int32

structure ServerLauncher where
  _config_file_path : Bytes
  _config : Json

/-- Where `run` gets to: it throws, it waits forever, or it calls `start_server`, then with the
files as they are and with what the checks of the dependencies and of the file returned. -/
inductive Launch
  | throws (e : StdException)
  | waits
  | start_server (disk : Bytes → FileState) (dependencies config_file : Bool)

namespace ServerLauncher

variable (env : LauncherEnvironment)

/-- What the loops over `_config["resources"]` go through. -/
def resources (config : Json) : List Json :=
  ((config.find? (bytes "resources")).getD .null).elements

/-- One turn of the loop of `check_resources`. -/
def checkResource (disk : Bytes → FileState) (res_file : Json) : Except StdException Bool :=
  match res_file.getString with
  | .error e => .error e
  | .ok filename =>
    match disk filename with
    | .missing => .ok false
    -- `exists` throws
    | .inaccessible e => .error e
    | .unreadable => .ok false
    | .readable contents =>
      match (res_file.constIndex (bytes "sha256")).bind Json.getString with
      | .error e => .error e
      | .ok expected_sha256 => .ok (env.sha256 contents = expected_sha256)

def checkResources (disk : Bytes → FileState) : List Json → Except StdException Bool
  | [] => .ok true
  | res_file :: rest =>
    match checkResource env disk res_file with
    | .ok true => checkResources disk rest
    | r => r

/-- The URL of a resource, and its file. -/
def downloadUrl (config res_file : Json) : Except StdException (Bytes × Bytes) := do
  -- a missing `resource_server` is added as a null
  let server ← ((config.find? (bytes "resource_server")).getD .null).getString
  let filename ← res_file.getString
  pure (server ++ bytes "/" ++ filename, filename)

def downloadUrls (config : Json) : List Json → Except StdException (List (Bytes × Bytes))
  | [] => .ok []
  | res_file :: rest => do
    let url ← downloadUrl config res_file
    let urls ← downloadUrls config rest
    pure (url :: urls)

/-- The server name that the downloads connect to. -/
def resourceServer (config : Json) : Bytes :=
  match config.find? (bytes "resource_server") with
  | some (.string server) => server
  | _ => []

/-- The task of one download. A file that cannot be opened is not noticed. -/
def downloadFile (server : Bytes) (disk : Bytes → FileState) (task : Bytes × Bytes) :
    Bytes → FileState :=
  match env.Get server task.1 with
  | none => disk
  | some body =>
    if env.opens task.2 then Function.update disk task.2 (.readable body) else disk

/-- The files after `download_resources`, unless it throws or, with a pool of no threads, waits
forever. -/
def download_resources (config : Json) (disk : Bytes → FileState) :
    Except StdException (Option (Bytes → FileState)) :=
  match downloadUrls config (resources config) with
  | .error e => .error e
  | .ok tasks =>
    if env.hardware_concurrency = 0 ∧ tasks ≠ [] then .ok none
    else if tasks.all fun task => (env.Get (resourceServer config) task.1).isSome then
      .ok (some ((env.order tasks).foldl (downloadFile env (resourceServer config)) disk))
    else .error ⟨bytes "Failed to download some resources."⟩

def check_process (name : Bytes) : Bool :=
  env.system (bytes "ps aux | grep -v grep | grep -q '" ++ name ++ bytes "'") = 0

def check_dependencies : Bool := [bytes "redis-server", bytes "mysqld"].all (check_process env)

/-- The part of `check_config_file` in its `try` block. -/
def checkPort (config : Json) : Bool :=
  match config.find? (bytes "port") with
  | none => false
  | some item =>
    match item.getInt env.floatToInt with
    | .error _ => false
    | .ok port => ¬ (port < 0 ∨ 65535 < port)

def check_config_file (disk : Bytes → FileState) (config_file : Bytes) :
    Except StdException Bool :=
  match disk config_file with
  | .missing => .ok false
  -- `exists` stands outside the `try` block
  | .inaccessible e => .error e
  | .unreadable => .ok false
  | .readable contents =>
    match env.parse contents with
    | .error _ => .ok false
    | .ok config => .ok (checkPort env config)

/-- The end of the checks: their results are not looked at. -/
def startServer (launcher : ServerLauncher) (disk : Bytes → FileState) : Launch :=
  match check_config_file env disk launcher._config_file_path with
  | .error e => .throws e
  | .ok config_file => .start_server disk (check_dependencies env) config_file

/-- The check of the resources and the download of missing ones: the files afterwards, unless `run`
ends there or waits forever. -/
def prepareResources (launcher : ServerLauncher) (disk : Bytes → FileState) :
    Except StdException (Option (Bytes → FileState)) :=
  match launcher._config.index (bytes "resources") with
  | .error e => .error e
  | .ok config =>
    match checkResources env disk (resources config) with
    | .error e => .error e
    | .ok true => .ok (some disk)
    | .ok false => download_resources env config disk

/-- `run` up to `start_server`. -/
def run (launcher : ServerLauncher) (disk : Bytes → FileState) : Launch :=
  match prepareResources env launcher disk with
  | .error e => .throws e
  | .ok none => .waits
  | .ok (some disk) => startServer env launcher disk

/-- The resource is there with the SHA-256 that it should have. -/
def Verified (disk : Bytes → FileState) (res_file : Json) : Prop :=
  ∃ filename contents, res_file.getString = .ok filename ∧ disk filename = .readable contents ∧
    (res_file.constIndex (bytes "sha256")).bind Json.getString = .ok (env.sha256 contents)

/-- The server is only started when its gates pass. -/
def GatesPass (launcher : ServerLauncher) (disk : Bytes → FileState) : Prop :=
  ∀ disk' dependencies config_file,
    run env launcher disk = .start_server disk' dependencies config_file →
      (∀ res_file ∈ resources launcher._config, Verified env disk' res_file) ∧
        dependencies = true ∧ config_file = true

/-- The resources of the configuration end the run: they cannot be looked up, one of them is no
file name, the first one can be read or not even be looked for, or a missing one is not
downloaded. -/
def ResourcesEndRun (launcher : ServerLauncher) (disk : Bytes → FileState) : Prop :=
  (∃ e, launcher._config.index (bytes "resources") = .error e) ∨
  (∃ res_file ∈ resources launcher._config, ∀ filename, res_file ≠ .string filename) ∨
  (∃ filename rest, resources launcher._config = .string filename :: rest ∧
    ((∃ contents, disk filename = .readable contents) ∨ ∃ e, disk filename = .inaccessible e)) ∨
  (resources launcher._config ≠ [] ∧
    (env.hardware_concurrency = 0 ∨
      ∀ server, launcher._config.find? (bytes "resource_server") = some (.string server) →
        ∃ filename, .string filename ∈ resources launcher._config ∧
          env.Get server (server ++ bytes "/" ++ filename) = none))

/-- The configuration file ends the run: it cannot be looked for, and no download writes it. -/
def ConfigFileEndsRun (launcher : ServerLauncher) (disk : Bytes → FileState) : Prop :=
  (∃ e, disk launcher._config_file_path = .inaccessible e) ∧
    (env.opens launcher._config_file_path = true →
      .string launcher._config_file_path ∉ resources launcher._config)

theorem getString_eq_ok_iff {j : Json} {s : Bytes} : j.getString = .ok s ↔ j = .string s := by
  cases j with
  | string t => exact ⟨fun h => congrArg Json.string (Except.ok.inj h), fun h => by cases h; rfl⟩
  | _ => constructor <;> rintro ⟨⟩

/-- A resource whose file name can be read is a string, and a string has no "sha256". -/
theorem not_verified (disk : Bytes → FileState) (res_file : Json) :
    ¬ Verified env disk res_file := by
  rintro ⟨filename, contents, hname, -, hsha⟩
  rw [getString_eq_ok_iff.mp hname] at hsha
  cases hsha

variable {env} {launcher : ServerLauncher} {disk : Bytes → FileState} {config : Json}

/-- Looking up the resources adds at most an empty entry. -/
theorem config_of_index (h : launcher._config.index (bytes "resources") = .ok config) :
    config = launcher._config ∨
      resources config = [] ∧ resources launcher._config = [] := by
  cases hfind : launcher._config.find? (bytes "resources") with
  | some child =>
    rw [Json.index_of_find?_some hfind] at h
    exact Or.inl (Except.ok.inj h).symm
  | none =>
    refine Or.inr ⟨?_, by rw [resources, hfind]; rfl⟩
    have hadded : config.find? (bytes "resources") = some .null := by
      cases hconfig : launcher._config with
      | null =>
        rw [hconfig] at h
        obtain rfl := Except.ok.inj h
        simp only [Json.find?, KeyedList.find?, ↓reduceIte]
      | object o =>
        rw [hconfig] at h hfind
        obtain rfl := Except.ok.inj h
        have hnone : KeyedList.find? (bytes "resources") o = none := hfind
        rw [Json.find?, KeyedList.find?_emplace, hnone, if_pos rfl, Option.none_or]
      | _ =>
        rw [hconfig] at h
        cases h
    rw [resources, hadded]
    rfl

/-- Every download has its URL if the server and the resources are strings. -/
theorem downloadUrls_of_strings {server : Bytes}
    (hserver : config.find? (bytes "resource_server") = some (.string server))
    (filenames : List Bytes) :
    downloadUrls config (filenames.map .string) =
      .ok (filenames.map fun f => (server ++ bytes "/" ++ f, f)) := by
  induction filenames with
  | nil => rfl
  | cons filename filenames ih =>
    rw [List.map_cons, downloadUrls, ih, downloadUrl, hserver]
    rfl

theorem downloadUrls_of_no_server
    (hserver : ∀ server, config.find? (bytes "resource_server") ≠ some (.string server))
    (res_file : Json) (rest : List Json) :
    ∃ e, downloadUrls config (res_file :: rest) = .error e := by
  cases hget : ((config.find? (bytes "resource_server")).getD .null).getString with
  | error e =>
    refine ⟨e, ?_⟩
    rw [downloadUrls, downloadUrl, hget]
    rfl
  | ok server =>
    have hstring := getString_eq_ok_iff.mp hget
    cases hfind : config.find? (bytes "resource_server") with
    | none =>
      rw [hfind] at hstring
      cases hstring
    | some j =>
      rw [hfind, Option.getD_some] at hstring
      exact absurd (hfind.trans (congrArg some hstring)) (hserver server)

theorem check_missing_of_not_readable {filename : Bytes} (rest : List Json)
    (h : ∀ contents, disk filename ≠ .readable contents)
    (hexists : ∀ e, disk filename ≠ .inaccessible e) :
    checkResources env disk (.string filename :: rest) = .ok false := by
  have hfirst : checkResource env disk (.string filename) = .ok false := by
    rw [checkResource, Json.getString]
    dsimp only
    cases hfile : disk filename with
    | missing => rfl
    | inaccessible e => exact absurd hfile (hexists e)
    | unreadable => rfl
    | readable contents => exact absurd hfile (h contents)
  rw [checkResources, hfirst]

theorem check_throws_of_inaccessible {filename : Bytes} {e : StdException} (rest : List Json)
    (h : disk filename = .inaccessible e) :
    checkResources env disk (.string filename :: rest) = .error e := by
  rw [checkResources, checkResource, Json.getString]
  dsimp only
  rw [h]

theorem check_throws_of_readable {filename contents : Bytes} (rest : List Json)
    (h : disk filename = .readable contents) :
    ∃ e, checkResources env disk (.string filename :: rest) = .error e := by
  have hindex : ∃ e, (Json.string filename).constIndex (bytes "sha256") = .error e := ⟨_, rfl⟩
  obtain ⟨e, he⟩ := hindex
  refine ⟨e, ?_⟩
  rw [checkResources, checkResource, Json.getString]
  dsimp only
  rw [h]
  dsimp only
  rw [he]
  rfl

theorem check_throws_of_not_string {res_file : Json} (rest : List Json)
    (h : ∀ filename, res_file ≠ .string filename) :
    ∃ e, checkResources env disk (res_file :: rest) = .error e := by
  cases hget : res_file.getString with
  | ok filename => exact absurd (getString_eq_ok_iff.mp hget) (h filename)
  | error e => exact ⟨e, by rw [checkResources, checkResource, hget]⟩

/-- Only a resource that is a string has a URL. -/
theorem eq_string_of_downloadUrl {res_file : Json} {url : Bytes × Bytes}
    (h : downloadUrl config res_file = .ok url) : res_file = .string url.2 := by
  rw [downloadUrl] at h
  cases hserver : ((config.find? (bytes "resource_server")).getD .null).getString with
  | error e =>
    rw [hserver] at h
    cases h
  | ok server =>
    cases hget : res_file.getString with
    | error e =>
      rw [hserver, hget] at h
      cases h
    | ok filename =>
      rw [hserver, hget] at h
      obtain rfl := Except.ok.inj h
      exact getString_eq_ok_iff.mp hget

theorem downloadUrls_of_not_string {resources : List Json} {res_file : Json}
    (hmem : res_file ∈ resources) (h : ∀ filename, res_file ≠ .string filename) :
    ∃ e, downloadUrls config resources = .error e := by
  induction resources with
  | nil => cases hmem
  | cons first rest ih =>
    cases hurl : downloadUrl config first with
    | error e =>
      refine ⟨e, ?_⟩
      rw [downloadUrls, hurl]
      rfl
    | ok url =>
      rcases List.mem_cons.mp hmem with rfl | hrest
      · exact absurd (eq_string_of_downloadUrl hurl) (h url.2)
      · obtain ⟨e, he⟩ := ih hrest
        refine ⟨e, ?_⟩
        rw [downloadUrls, hurl, he]
        rfl

/-- If all resources are strings, these are their names. -/
theorem exists_filenames {resources : List Json}
    (h : ¬ ∃ res_file ∈ resources, ∀ filename, res_file ≠ .string filename) :
    ∃ filenames : List Bytes, resources = filenames.map .string := by
  induction resources with
  | nil => exact ⟨[], rfl⟩
  | cons first rest ih =>
    have hrest : ¬ ∃ res_file ∈ rest, ∀ filename, res_file ≠ .string filename := by
      rintro ⟨res_file, hmem, hno⟩
      exact h ⟨res_file, List.mem_cons_of_mem _ hmem, hno⟩
    obtain ⟨filenames, hfilenames⟩ := ih hrest
    have hfirst : ∃ filename, first = .string filename := by
      by_contra hno
      exact h ⟨first, List.mem_cons_self, fun filename heq => hno ⟨filename, heq⟩⟩
    obtain ⟨filename, hfilename⟩ := hfirst
    exact ⟨filename :: filenames, by rw [hfilename, hfilenames, List.map_cons]⟩

/-- All requests for the resources are answered. -/
theorem all_answered_iff {server : Bytes} {filenames : List Bytes}
    (hresources : resources config = filenames.map .string) :
    ((filenames.map fun f => (server ++ bytes "/" ++ f, f)).all fun task =>
        (env.Get server task.1).isSome) = true ↔
      ¬ ∃ filename, Json.string filename ∈ resources config ∧
        env.Get server (server ++ bytes "/" ++ filename) = none := by
  rw [List.all_eq_true, hresources]
  constructor
  · rintro hall ⟨filename, hmem, hnone⟩
    obtain ⟨f, hf, heq⟩ := List.mem_map.mp hmem
    obtain rfl := Json.string.inj heq
    have hsome := hall _ (List.mem_map_of_mem hf)
    rw [hnone] at hsome
    cases hsome
  · rintro hno task htask
    obtain ⟨f, hf, rfl⟩ := List.mem_map.mp htask
    rw [Option.isSome_iff_ne_none]
    intro hnone
    exact hno ⟨f, List.mem_map_of_mem hf, hnone⟩

/-- Without a server to ask, no resource is downloaded. -/
theorem not_downloaded_of_no_server
    (hserver : ∀ server, config.find? (bytes "resource_server") ≠ some (.string server))
    (hne : resources config ≠ []) : ¬ ∃ disk', download_resources env config disk =
      .ok (some disk') := by
  rintro ⟨disk', hdisk⟩
  cases hresources : resources config with
  | nil => exact hne hresources
  | cons res_file rest =>
    have hthrows : ∃ e, downloadUrls config (res_file :: rest) = .error e :=
      downloadUrls_of_no_server hserver res_file rest
    obtain ⟨e, he⟩ := hthrows
    rw [download_resources, hresources, he] at hdisk
    cases hdisk

/-- A download of missing resources succeeds exactly if there is a server that sends all of them
and a thread to ask it. -/
theorem download_resources_iff {filenames : List Bytes} (hnonempty : filenames ≠ [])
    (hresources : resources config = filenames.map .string) :
    (∃ disk', download_resources env config disk = .ok (some disk')) ↔
      ¬ (env.hardware_concurrency = 0 ∨
        ∀ server, config.find? (bytes "resource_server") = some (.string server) →
          ∃ filename, Json.string filename ∈ resources config ∧
            env.Get server (server ++ bytes "/" ++ filename) = none) := by
  by_cases hserver : ∃ server, config.find? (bytes "resource_server") = some (.string server)
  · obtain ⟨server, hserver⟩ := hserver
    let tasks := filenames.map fun f => (server ++ bytes "/" ++ f, f)
    have htasks : tasks ≠ [] := fun hnil => hnonempty (List.map_eq_nil_iff.mp hnil)
    have hname : resourceServer config = server := by rw [resourceServer, hserver]
    have hall : (tasks.all fun task => (env.Get server task.1).isSome) = true ↔
        ¬ ∃ filename, Json.string filename ∈ resources config ∧
          env.Get server (server ++ bytes "/" ++ filename) = none := all_answered_iff hresources
    have hforall : (∀ server', config.find? (bytes "resource_server") = some (.string server') →
        ∃ filename, Json.string filename ∈ resources config ∧
          env.Get server' (server' ++ bytes "/" ++ filename) = none) ↔
        ∃ filename, Json.string filename ∈ resources config ∧
          env.Get server (server ++ bytes "/" ++ filename) = none := by
      constructor
      · exact fun h => h server hserver
      · intro h server' hserver'
        obtain rfl := Json.string.inj (Option.some.inj (hserver.symm.trans hserver'))
        exact h
    rw [hforall, not_or, ← hall, download_resources, hresources,
      downloadUrls_of_strings hserver, hname]
    dsimp only
    by_cases hthreads : env.hardware_concurrency = 0
    · rw [if_pos ⟨hthreads, htasks⟩]
      refine iff_of_false ?_ (fun h => h.1 hthreads)
      rintro ⟨disk', hdisk⟩
      cases hdisk
    · rw [if_neg fun h => hthreads h.1]
      split_ifs with hsome
      · exact iff_of_true ⟨_, rfl⟩ ⟨hthreads, hsome⟩
      · refine iff_of_false ?_ (fun h => hsome h.2)
        rintro ⟨disk', hdisk⟩
        cases hdisk
  · refine iff_of_false ?_ (fun h => h (Or.inr fun server hs => absurd ⟨server, hs⟩ hserver))
    apply not_downloaded_of_no_server (not_exists.mp hserver)
    rw [hresources]
    exact fun hnil => hnonempty (List.map_eq_nil_iff.mp hnil)

/-- The downloads are for the files of the resources. -/
theorem mem_downloadUrls {resources : List Json} {tasks : List (Bytes × Bytes)}
    (h : downloadUrls config resources = .ok tasks) (filename : Bytes) :
    filename ∈ tasks.map Prod.snd ↔ .string filename ∈ resources := by
  induction resources generalizing tasks with
  | nil =>
    obtain rfl := Except.ok.inj h
    exact iff_of_false List.not_mem_nil List.not_mem_nil
  | cons first rest ih =>
    rw [downloadUrls] at h
    cases hurl : downloadUrl config first with
    | error e =>
      rw [hurl] at h
      cases h
    | ok url =>
      cases hurls : downloadUrls config rest with
      | error e =>
        rw [hurl, hurls] at h
        cases h
      | ok urls =>
        rw [hurl, hurls] at h
        obtain rfl := Except.ok.inj h
        have hfirst : first = .string url.2 := eq_string_of_downloadUrl hurl
        rw [List.map_cons, List.mem_cons, List.mem_cons, ih hurls, hfirst, Json.string.injEq]

/-- Of the files that cannot be looked for, the downloads change those that they can open. -/
theorem inaccessible_of_downloads {server filename : Bytes} {tasks : List (Bytes × Bytes)}
    (hget : ∀ task ∈ tasks, (env.Get server task.1).isSome) :
    (∃ e, tasks.foldl (downloadFile env server) disk filename = .inaccessible e) ↔
      (∃ e, disk filename = .inaccessible e) ∧
        (env.opens filename = true → filename ∉ tasks.map Prod.snd) := by
  induction tasks generalizing disk with
  | nil =>
    rw [List.foldl_nil, List.map_nil]
    exact (and_iff_left fun _ => List.not_mem_nil).symm
  | cons task tasks ih =>
    obtain ⟨hfirst, hrest⟩ := List.forall_mem_cons.mp hget
    obtain ⟨body, hbody⟩ := Option.isSome_iff_exists.mp hfirst
    rw [List.foldl_cons, ih hrest, List.map_cons, List.mem_cons, downloadFile, hbody]
    dsimp only
    by_cases hname : filename = task.2
    · subst hname
      cases env.opens task.2 with
      | true => simp
      | false => simp
    · have hother : (if env.opens task.2 = true then
          Function.update disk task.2 (.readable body) else disk) filename = disk filename := by
        split
        · exact Function.update_of_ne hname _ _
        · rfl
      rw [hother, or_iff_right hname]

/-- No list of resources passes the check, unless it is empty. -/
theorem resources_nil_of_check {resources : List Json}
    (h : checkResources env disk resources = .ok true) : resources = [] := by
  cases resources with
  | nil => rfl
  | cons res_file rest =>
    by_cases hstring : ∃ filename, res_file = .string filename
    · obtain ⟨filename, rfl⟩ := hstring
      cases hfile : disk filename with
      | readable contents =>
        have hthrows : ∃ e, checkResources env disk (.string filename :: rest) = .error e :=
          check_throws_of_readable rest hfile
        obtain ⟨e, he⟩ := hthrows
        cases he.symm.trans h
      | inaccessible e =>
        have hthrows : checkResources env disk (.string filename :: rest) = .error e :=
          check_throws_of_inaccessible rest hfile
        cases hthrows.symm.trans h
      | missing | unreadable =>
        have hfalse : checkResources env disk (.string filename :: rest) = .ok false :=
          check_missing_of_not_readable rest (fun _ => by rw [hfile]; exact nofun)
            fun _ => by rw [hfile]; exact nofun
        cases hfalse.symm.trans h
    · have hthrows : ∃ e, checkResources env disk (res_file :: rest) = .error e :=
        check_throws_of_not_string rest (not_exists.mp hstring)
      obtain ⟨e, he⟩ := hthrows
      cases he.symm.trans h

/-- When the resources are prepared, the configuration file ends the run or its check returns. -/
theorem inaccessible_of_prepared {disk' : Bytes → FileState}
    (h : prepareResources env launcher disk = .ok (some disk')) :
    (∃ e, disk' launcher._config_file_path = .inaccessible e) ↔
      ConfigFileEndsRun env launcher disk := by
  rw [prepareResources] at h
  cases hindex : launcher._config.index (bytes "resources") with
  | error e =>
    rw [hindex] at h
    cases h
  | ok config =>
    rw [hindex] at h
    dsimp only at h
    have hresources (filename : Bytes) : Json.string filename ∈ resources config ↔
        Json.string filename ∈ resources launcher._config := by
      rcases config_of_index hindex with rfl | ⟨hnil, hnil'⟩
      · rfl
      · rw [hnil, hnil']
    rw [ConfigFileEndsRun, ← hresources]
    cases hcheck : checkResources env disk (resources config) with
    | error e =>
      rw [hcheck] at h
      cases h
    | ok found =>
      rw [hcheck] at h
      cases found with
      | true =>
        -- nothing is listed, and no file has changed
        obtain rfl := Option.some.inj (Except.ok.inj h)
        rw [resources_nil_of_check hcheck]
        exact (and_iff_left fun _ => List.not_mem_nil).symm
      | false =>
        rw [download_resources] at h
        cases htasks : downloadUrls config (resources config) with
        | error e =>
          rw [htasks] at h
          cases h
        | ok tasks =>
          rw [htasks] at h
          dsimp only at h
          split_ifs at h with _ hall
          · cases h
          · -- all requests were answered, so each file was written that could be opened
            obtain rfl := Option.some.inj (Except.ok.inj h)
            have hperm := env.order_perm tasks
            have hget : ∀ task ∈ env.order tasks,
                (env.Get (resourceServer config) task.1).isSome := fun task htask =>
              List.all_eq_true.mp hall task (hperm.mem_iff.mp htask)
            rw [inaccessible_of_downloads hget, (hperm.map Prod.snd).mem_iff,
              mem_downloadUrls htasks]

theorem prepare_of_no_resources
    (hindex : launcher._config.index (bytes "resources") = .ok config)
    (hnil : resources launcher._config = []) :
    prepareResources env launcher disk = .ok (some disk) := by
  have hconfig : resources config = [] := by
    rcases config_of_index hindex with rfl | ⟨hnil', -⟩
    · exact hnil
    · exact hnil'
  rw [prepareResources, hindex]
  dsimp only
  rw [hconfig, checkResources]

/-- A check that throws ends the run. -/
theorem prepared_iff_of_throws
    (hindex : launcher._config.index (bytes "resources") = .ok config)
    (hthrows : ∃ e, checkResources env disk (resources config) = .error e)
    (hend : ResourcesEndRun env launcher disk) :
    (∃ disk', prepareResources env launcher disk = .ok (some disk')) ↔
      ¬ ResourcesEndRun env launcher disk := by
  obtain ⟨e, he⟩ := hthrows
  refine iff_of_false ?_ fun hnot => hnot hend
  rintro ⟨disk', hprepared⟩
  rw [prepareResources, hindex] at hprepared
  dsimp only at hprepared
  rw [he] at hprepared
  cases hprepared

/-- A resource that is no file name makes the download throw. -/
theorem not_downloaded_of_not_string {res_file : Json} (hmem : res_file ∈ resources config)
    (h : ∀ filename, res_file ≠ .string filename) :
    ¬ ∃ disk', download_resources env config disk = .ok (some disk') := by
  have hthrows : ∃ e, downloadUrls config (resources config) = .error e :=
    downloadUrls_of_not_string hmem h
  obtain ⟨e, he⟩ := hthrows
  intro ⟨disk', hdownload⟩
  rw [download_resources, he] at hdownload
  cases hdownload

/-- With the first resource missing the check fails, and the download decides. -/
theorem prepared_iff_of_missing {filename : Bytes} {rest : List Json}
    (hindex : launcher._config.index (bytes "resources") = .ok launcher._config)
    (hresources : resources launcher._config = .string filename :: rest)
    (hmissing : ∀ contents, disk filename ≠ .readable contents)
    (hexists : ∀ e, disk filename ≠ .inaccessible e) :
    (∃ disk', prepareResources env launcher disk = .ok (some disk')) ↔
      ¬ ResourcesEndRun env launcher disk := by
  have hne : resources launcher._config ≠ [] := hresources ▸ List.cons_ne_nil _ _
  have hcheck : checkResources env disk (resources launcher._config) = .ok false := by
    rw [hresources]
    exact check_missing_of_not_readable rest hmissing hexists
  have hprepare : prepareResources env launcher disk =
      download_resources env launcher._config disk := by
    rw [prepareResources, hindex]
    dsimp only
    rw [hcheck]
  rw [hprepare]
  by_cases hstrings : ∃ r ∈ resources launcher._config, ∀ f, r ≠ .string f
  · obtain ⟨r, hmem, hr⟩ := hstrings
    apply iff_of_false (not_downloaded_of_not_string hmem hr)
    exact fun hnot => hnot (Or.inr (Or.inl ⟨r, hmem, hr⟩))
  · obtain ⟨filenames, hfilenames⟩ := exists_filenames hstrings
    have hnonempty : filenames ≠ [] := by
      rintro rfl
      exact hne hfilenames
    rw [download_resources_iff hnonempty hfilenames, not_iff_not]
    constructor
    · exact fun h => Or.inr (Or.inr (Or.inr ⟨hne, h⟩))
    · rintro (⟨e, he⟩ | hno | ⟨f, rest', heq, hfound⟩ | ⟨-, h⟩)
      · rw [hindex] at he
        cases he
      · exact absurd hno hstrings
      · rw [hresources] at heq
        obtain ⟨hf, -⟩ := List.cons.inj heq
        obtain rfl := Json.string.inj hf
        rcases hfound with ⟨contents, hcontents⟩ | ⟨e, he⟩
        · exact absurd hcontents (hmissing contents)
        · exact absurd he (hexists e)
      · exact h

/-- With resources to check, the run gets past them exactly if they do not end it. -/
theorem prepared_iff {res_file : Json} {rest : List Json}
    (hresources : resources launcher._config = res_file :: rest) :
    (∃ disk', prepareResources env launcher disk = .ok (some disk')) ↔
      ¬ ResourcesEndRun env launcher disk := by
  have hne : resources launcher._config ≠ [] := hresources ▸ List.cons_ne_nil _ _
  cases hindex : launcher._config.index (bytes "resources") with
  | error e =>
    refine iff_of_false ?_ (fun h => h (Or.inl ⟨e, hindex⟩))
    rintro ⟨disk', hprepared⟩
    rw [prepareResources, hindex] at hprepared
    cases hprepared
  | ok config =>
    obtain rfl : config = launcher._config := by
      rcases config_of_index hindex with heq | ⟨-, hnil⟩
      · exact heq
      · exact absurd hnil hne
    by_cases hfirst : ∃ filename, res_file = .string filename
    · obtain ⟨filename, rfl⟩ := hfirst
      by_cases hreadable : ∃ contents, disk filename = .readable contents
      · -- the check reads the file and then throws
        obtain ⟨contents, hcontents⟩ := hreadable
        apply prepared_iff_of_throws hindex
        · rw [hresources]
          exact check_throws_of_readable rest hcontents
        · exact Or.inr (Or.inr (Or.inl ⟨filename, rest, hresources, .inl ⟨contents, hcontents⟩⟩))
      · by_cases hinaccessible : ∃ e, disk filename = .inaccessible e
        · obtain ⟨e, he⟩ := hinaccessible
          apply prepared_iff_of_throws hindex
          · rw [hresources]
            exact ⟨e, check_throws_of_inaccessible rest he⟩
          · exact Or.inr (Or.inr (Or.inl ⟨filename, rest, hresources, .inr ⟨e, he⟩⟩))
        · exact prepared_iff_of_missing hindex hresources (not_exists.mp hreadable)
            (not_exists.mp hinaccessible)
    · have hno : ∀ filename, res_file ≠ .string filename := not_exists.mp hfirst
      apply prepared_iff_of_throws hindex
      · rw [hresources]
        exact check_throws_of_not_string rest hno
      · have hmem : res_file ∈ resources launcher._config := hresources ▸ List.mem_cons_self
        exact Or.inr (Or.inl ⟨res_file, hmem, hno⟩)

/-- Resources that end the run keep it from the other checks. -/
theorem not_prepared_of_resourcesEndRun (hend : ResourcesEndRun env launcher disk)
    (disk' : Bytes → FileState) : prepareResources env launcher disk ≠ .ok (some disk') := by
  intro hprepared
  cases hresources : resources launcher._config with
  | cons res_file rest => exact (prepared_iff hresources).mp ⟨disk', hprepared⟩ hend
  | nil =>
    -- without resources only the lookup can end the run
    rcases hend with ⟨e, he⟩ | ⟨r, hmem, -⟩ | ⟨f, rest, heq, -⟩ | ⟨hne, -⟩
    · rw [prepareResources, he] at hprepared
      cases hprepared
    · rw [hresources] at hmem
      cases hmem
    · rw [hresources] at heq
      cases heq
    · exact hne hresources

/-- The check of the configuration file throws exactly if the file cannot be looked for. -/
theorem check_config_file_eq_error_iff {config_file : Bytes} {e : StdException} :
    check_config_file env disk config_file = .error e ↔ disk config_file = .inaccessible e := by
  rw [check_config_file]
  cases disk config_file with
  | missing | unreadable => exact iff_of_false nofun nofun
  | inaccessible e' => exact ⟨fun h => congrArg _ (Except.error.inj h), fun h => by cases h; rfl⟩
  | readable contents =>
    dsimp only
    cases env.parse contents with
    | error e' => exact iff_of_false nofun nofun
    | ok config => exact iff_of_false nofun nofun

/-- The server is started with the files as the resources leave them. -/
theorem run_eq_start_server_iff {disk' : Bytes → FileState} {dependencies config_file : Bool} :
    run env launcher disk = .start_server disk' dependencies config_file ↔
      prepareResources env launcher disk = .ok (some disk') ∧
        dependencies = check_dependencies env ∧
        check_config_file env disk' launcher._config_file_path = .ok config_file := by
  rw [run]
  rcases prepareResources env launcher disk with e | _ | d
  · exact iff_of_false nofun fun h => nomatch h.1
  · exact iff_of_false nofun fun h => nomatch h.1
  · dsimp only
    rw [startServer]
    constructor
    · intro h
      cases hcheck : check_config_file env d launcher._config_file_path with
      | error e =>
        rw [hcheck] at h
        cases h
      | ok found =>
        rw [hcheck] at h
        cases h
        exact ⟨rfl, rfl, hcheck⟩
    · rintro ⟨hdisk, rfl, hcheck⟩
      cases hdisk
      rw [hcheck]

/-- Past the resources, the server is started exactly if its configuration file does not end the
run. -/
theorem starts_iff_of_prepared {disk' : Bytes → FileState}
    (h : prepareResources env launcher disk = .ok (some disk')) :
    (∃ config_file, run env launcher disk =
        .start_server disk' (check_dependencies env) config_file) ↔
      ¬ ConfigFileEndsRun env launcher disk := by
  simp only [run_eq_start_server_iff, h, true_and]
  rw [← inaccessible_of_prepared h]
  cases hcheck : check_config_file env disk' launcher._config_file_path with
  | error e =>
    exact iff_of_false nofun fun hnot => hnot ⟨e, check_config_file_eq_error_iff.mp hcheck⟩
  | ok found =>
    refine iff_of_true ⟨found, rfl⟩ fun ⟨e, he⟩ => ?_
    cases hcheck.symm.trans (check_config_file_eq_error_iff.mpr he)

/-- The gates hold back the server exactly if the resources or the configuration file end the run,
or there are no resources and both checks, whose results `run` does not look at, pass. A listed
resource is never verified: it is a file name, and a file name has no SHA-256. -/
theorem gatesPass_iff (env : LauncherEnvironment) (launcher : ServerLauncher)
    (disk : Bytes → FileState) :
    GatesPass env launcher disk ↔
      ResourcesEndRun env launcher disk ∨ ConfigFileEndsRun env launcher disk ∨
        (resources launcher._config = [] ∧ check_dependencies env = true ∧
          check_config_file env disk launcher._config_file_path = .ok true) := by
  by_cases hend : ResourcesEndRun env launcher disk
  · refine iff_of_true ?_ (Or.inl hend)
    intro disk' dependencies config_file hrun
    exact absurd (run_eq_start_server_iff.mp hrun).1 (not_prepared_of_resourcesEndRun hend disk')
  rw [or_iff_right hend]
  by_cases hfile : ConfigFileEndsRun env launcher disk
  · refine iff_of_true ?_ (Or.inl hfile)
    intro disk' dependencies config_file hrun
    obtain ⟨hprepared, -, hcheck⟩ := run_eq_start_server_iff.mp hrun
    obtain ⟨e, he⟩ := (inaccessible_of_prepared hprepared).mpr hfile
    cases hcheck.symm.trans (check_config_file_eq_error_iff.mpr he)
  rw [or_iff_right hfile]
  cases hresources : resources launcher._config with
  | nil =>
    -- the server is started whatever the two checks return, so that they have to return true
    cases hindex : launcher._config.index (bytes "resources") with
    | error e => exact absurd (Or.inl ⟨e, hindex⟩) hend
    | ok config =>
      have hprepared : prepareResources env launcher disk = .ok (some disk) :=
        prepare_of_no_resources hindex hresources
      obtain ⟨config_file, hrun⟩ := (starts_iff_of_prepared hprepared).mpr hfile
      constructor
      · intro hgates
        obtain ⟨-, hdependencies, rfl⟩ := hgates _ _ _ hrun
        exact ⟨rfl, hdependencies, (run_eq_start_server_iff.mp hrun).2.2⟩
      · rintro ⟨-, hdependencies, hconfig⟩ disk' dependencies config_file' hstart
        obtain ⟨hdisk, rfl, hcheck⟩ := run_eq_start_server_iff.mp hstart
        cases hprepared.symm.trans hdisk
        refine ⟨fun r hmem => ?_, hdependencies, Except.ok.inj (hcheck.symm.trans hconfig)⟩
        rw [hresources] at hmem
        cases hmem
  | cons res_file rest =>
    -- the server is started, and the first resource is not verified then
    refine iff_of_false ?_ (fun h => List.cons_ne_nil _ _ h.1)
    intro hgates
    obtain ⟨disk', hprepared⟩ := (prepared_iff hresources).mpr hend
    obtain ⟨config_file, hrun⟩ := (starts_iff_of_prepared hprepared).mpr hfile
    have hfirst : res_file ∈ resources launcher._config := hresources ▸ List.mem_cons_self
    exact not_verified env _ _ ((hgates _ _ _ hrun).1 res_file hfirst)

/-- No process runs, and no request is answered. -/
def bareEnvironment : LauncherEnvironment where
  sha256 := id
  hardware_concurrency := 1
  order := id
  order_perm := List.Perm.refl
  Get _ _ := none
  opens _ := true
  system _ := 1
  parse _ := .error ⟨[]⟩
  floatToInt _ := 0

/-- With an empty list of resources the server is started although the processes it depends on do
not run and its configuration file is missing. -/
theorem not_gatesPass_bare :
    ¬ GatesPass bareEnvironment
      ⟨bytes "config.json", .object [(bytes "resources", .array [])]⟩ (fun _ => .missing) := by
  intro hgates
  have hrun : run bareEnvironment
      ⟨bytes "config.json", .object [(bytes "resources", .array [])]⟩ (fun _ => .missing) =
      .start_server (fun _ => .missing) false false := rfl
  exact Bool.false_ne_true (hgates _ _ _ hrun).2.1

end ServerLauncher

end OpenAPT
