import OpenAPT.Compress
import OpenAPT.CompressFile

/-! `compress_folder`: the files of a folder in one archive, and every folder in it in an archive of
its own, on a disk without links. -/
namespace OpenAPT

/-- A name that `readdir` gives. -/
structure EntryName where
  name : Bytes
  no_slash : (0x2F : UInt8) ∉ name

inductive DiskNode
  | directory
  | file (content : Bytes)

/-- What there is at each path. -/
abbrev Disk := Bytes → Option DiskNode

/-- The calls of `compress_folder` that can fail: the entries of a folder in the order of `readdir`,
`none` where `opendir` fails, the files that open and the place in a file where `fread` fails, the
archives that open, and whether an archive takes a buffer after those it has taken. `gzclose` makes
the archive of the buffers; what it leaves with an error is incomplete. -/
structure FolderEnv where
  readdir : Bytes → Option (List EntryName)
  fopen : Bytes → Bool
  readError : Bytes → Option ℕ
  gzopen : Bytes → Bool
  gzwrite : Bytes → List Bytes → Bytes → Bool
  gzclose : Bytes → List Bytes → Bool × Bytes
  gunzip : Bytes → Option Bytes

/-- An archive that is closed gives back what was written to it, however it was cut into buffers. -/
def FolderEnv.Lawful (e : FolderEnv) : Prop :=
  ∀ out buffers, (e.gzclose out buffers).1 = true →
    e.gunzip (e.gzclose out buffers).2 = some buffers.flatten

/-- What `fread` gives of a file before it returns zero, at the end or at an error. -/
def FolderEnv.readable (e : FolderEnv) (path content : Bytes) : Bytes :=
  match e.readError path with
  | none => content
  | some n => content.take n

/-- How a call ends other than by returning true: it returns false, or it has written beyond
`outfile_name`. -/
inductive FolderFault
  | failed
  | overflow
  deriving DecidableEq

namespace CompressFolder

def outfile_name (folder_name : Bytes) : Bytes := folder_name ++ bytes ".gz"

def file_name (folder_name : Bytes) (entry : EntryName) : Bytes :=
  folder_name ++ bytes "/" ++ entry.name

theorem length_file_name (folder_name : Bytes) (entry : EntryName) :
    (file_name folder_name entry).length = folder_name.length + 1 + entry.name.length := by
  rw [file_name, List.length_append, List.length_append]
  rfl

/-- `d_name` is `.` or `..`. -/
def isDots (entry : EntryName) : Bool := entry.name = bytes "." || entry.name = bytes ".."

/-- The `fread` loop on one file: the buffers the archive has taken after it, `none` where a write
fails. -/
def copyLoop (e : FolderEnv) (out content : Bytes) (buffers : List Bytes) : Option (List Bytes) :=
  if content = [] then some buffers
  else if e.gzwrite out buffers (content.take CHUNK) then
    copyLoop e out (content.drop CHUNK) (buffers ++ [content.take CHUNK])
  else none
termination_by content.length
decreasing_by
  rename_i hne _
  have hpos := List.length_pos_iff.mpr hne
  rw [List.length_drop, CHUNK]
  omega

mutual

/-- The disk after a call that returns true. The names get longer from call to call, and
`snprintf` bounds them, so that the recursion ends. -/
def compress_folder (e : FolderEnv) (folder_name : Bytes) (disk : Disk) : Except FolderFault Disk :=
  let out := outfile_name folder_name
  if 256 ≤ out.length then .error .overflow
  else if e.gzopen out = false then .error .failed
  else
    match disk out, e.readdir folder_name with
    | some .directory, _ => .error .failed
    | _, none => .error .failed
    | _, some entries =>
      match entriesLoop e folder_name entries (Function.update disk out (some (.file []))) [] with
      | .error fault => .error fault
      -- what `gzclose` returns is not looked at
      | .ok (disk, buffers) =>
        .ok (Function.update disk out (some (.file (e.gzclose out buffers).2)))
termination_by (512 - folder_name.length, 1, 0)

/-- The `readdir` loop: the disk, and the buffers that the archive has taken. -/
def entriesLoop (e : FolderEnv) (folder_name : Bytes) (entries : List EntryName) (disk : Disk)
    (buffers : List Bytes) : Except FolderFault (Disk × List Bytes) :=
  match entries with
  | [] => .ok (disk, buffers)
  | entry :: entries =>
    if isDots entry then entriesLoop e folder_name entries disk buffers
    else if 512 ≤ (file_name folder_name entry).length then .error .failed
    else
      match disk (file_name folder_name entry) with
      | some .directory =>
        match compress_folder e (file_name folder_name entry) disk with
        | .error fault => .error fault
        | .ok disk => entriesLoop e folder_name entries disk buffers
      -- what `stat` does not find is passed over, and so is a file that does not open
      | none => entriesLoop e folder_name entries disk buffers
      | some (.file content) =>
        if e.fopen (file_name folder_name entry) then
          match copyLoop e (outfile_name folder_name)
              (e.readable (file_name folder_name entry) content) buffers with
          | none => .error .failed
          | some buffers => entriesLoop e folder_name entries disk buffers
        else entriesLoop e folder_name entries disk buffers
termination_by (512 - folder_name.length, 0, entries.length)
decreasing_by
  · exact .right _ (.right _ (Nat.lt_succ_self _))
  · rename_i hlength
    have hlonger := length_file_name folder_name entry
    exact .left _ _ (by omega)
  all_goals exact .right _ (.right _ (Nat.lt_succ_self _))

end

/-! What is in a folder, and the folders that are reached. -/

variable {e : FolderEnv} {disk₀ disk disk' : Disk} {root folder : Bytes}

def entriesOf (e : FolderEnv) (folder : Bytes) : List EntryName :=
  ((e.readdir folder).getD []).filter fun entry => isDots entry = false

/-- The contents of the files among some entries that open, in their order, as far as they can be
read. -/
def contentsOf (e : FolderEnv) (disk : Disk) (folder : Bytes) (entries : List EntryName) :
    List Bytes :=
  entries.filterMap fun entry =>
    match disk (file_name folder entry) with
    | some (.file content) =>
      if e.fopen (file_name folder entry) then some (e.readable (file_name folder entry) content)
      else none
    | _ => none

/-- The folder itself and all folders below it. -/
inductive Reached (e : FolderEnv) (disk : Disk) (root : Bytes) : Bytes → Prop
  | root : Reached e disk root root
  | sub {folder : Bytes} {entry : EntryName} (h : Reached e disk root folder)
      (hentry : entry ∈ entriesOf e folder)
      (hdirectory : disk (file_name folder entry) = some .directory) :
      Reached e disk root (file_name folder entry)

/-- No entry of a folder is named as the archive of another. -/
def Fresh (e : FolderEnv) (disk : Disk) (root : Bytes) : Prop :=
  ∀ folder, Reached e disk root folder → ∀ sub ∈ entriesOf e folder,
    disk (file_name folder sub) = some .directory →
      ∀ entry ∈ entriesOf e folder, entry.name ≠ outfile_name sub.name

/-- The files of a folder went to its archive. -/
def Archived (e : FolderEnv) (disk₀ disk : Disk) (folder : Bytes) : Prop :=
  ∃ buffers,
    disk (outfile_name folder) = some (.file (e.gzclose (outfile_name folder) buffers).2) ∧
    buffers.flatten = (contentsOf e disk₀ folder (entriesOf e folder)).flatten

/-- Only archives of folders that are reached have changed. -/
def Kept (e : FolderEnv) (disk₀ : Disk) (root : Bytes) (disk : Disk) : Prop :=
  ∀ path, (∀ folder, Reached e disk₀ root folder → path ≠ outfile_name folder) →
    disk path = disk₀ path

theorem Reached.trans {sub : Bytes} (h : Reached e disk₀ root folder)
    (hsub : Reached e disk₀ folder sub) : Reached e disk₀ root sub := by
  induction hsub with
  | root => exact h
  | sub _ hentry hdirectory ih => exact ih.sub hentry hdirectory

/-- A folder below another is reached through one of its entries. -/
theorem Reached.cases_head {sub : Bytes} (h : Reached e disk₀ folder sub) : sub = folder ∨
    ∃ entry ∈ entriesOf e folder, disk₀ (file_name folder entry) = some .directory ∧
      Reached e disk₀ (file_name folder entry) sub := by
  induction h with
  | root => exact Or.inl rfl
  | @sub parent entry _ hentry hdirectory ih =>
    rcases ih with rfl | ⟨first, hfirst, hfolder, hrest⟩
    · exact Or.inr ⟨entry, hentry, hdirectory, .root⟩
    · exact Or.inr ⟨first, hfirst, hfolder, hrest.sub hentry hdirectory⟩

theorem Reached.prefix {sub : Bytes} (h : Reached e disk₀ folder sub) :
    sub = folder ∨ ∃ rest, sub = folder ++ bytes "/" ++ rest := by
  induction h with
  | root => exact Or.inl rfl
  | @sub parent entry _ _ _ ih =>
    rcases ih with rfl | ⟨rest, rfl⟩
    · exact Or.inr ⟨entry.name, rfl⟩
    · refine Or.inr ⟨rest ++ bytes "/" ++ entry.name, ?_⟩
      simp only [file_name, List.append_assoc]

/-- The last slash of a path stands in front of the name. -/
theorem append_slash_inj {u v a b : Bytes} (ha : (0x2F : UInt8) ∉ a) (hb : (0x2F : UInt8) ∉ b)
    (h : u ++ bytes "/" ++ a = v ++ bytes "/" ++ b) : u = v ∧ a = b := by
  have hslash : bytes "/" = [0x2F] := rfl
  rw [hslash, List.append_assoc, List.append_assoc, List.singleton_append, List.singleton_append]
    at h
  -- one of the two folders starts with the other, and then a slash is in the name
  rcases List.append_eq_append_iff.mp h with ⟨c, hv, hc⟩ | ⟨c, hu, hc⟩
  · cases c with
    | nil =>
      rw [List.append_nil] at hv
      exact ⟨hv.symm, (List.cons.inj hc).2⟩
    | cons x c =>
      have hmem : (0x2F : UInt8) ∈ a := by
        rw [(List.cons.inj hc).2]
        exact List.mem_append_right c List.mem_cons_self
      exact absurd hmem ha
  · cases c with
    | nil =>
      rw [List.append_nil] at hu
      exact ⟨hu, (List.cons.inj hc).2.symm⟩
    | cons x c =>
      have hmem : (0x2F : UInt8) ∈ b := by
        rw [(List.cons.inj hc).2]
        exact List.mem_append_right c List.mem_cons_self
      exact absurd hmem hb

theorem outfile_name_inj {u v : Bytes} (h : outfile_name u = outfile_name v) : u = v :=
  List.append_cancel_right h

theorem outfile_file_name (folder : Bytes) (entry : EntryName) :
    outfile_name (file_name folder entry) = folder ++ bytes "/" ++ outfile_name entry.name := by
  simp only [outfile_name, file_name, List.append_assoc]

/-- What a folder that is reached lists is the archive of none. -/
theorem listed_ne_outfile (hfresh : Fresh e disk₀ root) (hfolder : Reached e disk₀ root folder)
    {entry : EntryName} (hentry : entry ∈ entriesOf e folder) {other : Bytes}
    (hother : Reached e disk₀ root other) : file_name folder entry ≠ outfile_name other := by
  intro heq
  cases hother with
  | root =>
    -- The archive of the root stands beside it.
    obtain ⟨rest, hrest⟩ : ∃ rest, file_name folder entry = root ++ (bytes "/" ++ rest) := by
      rcases hfolder.prefix with rfl | ⟨rest, rfl⟩
      · exact ⟨entry.name, List.append_assoc _ _ _⟩
      · exact ⟨rest ++ bytes "/" ++ entry.name, by simp only [file_name, List.append_assoc]⟩
    rw [hrest, outfile_name] at heq
    exact absurd (List.append_cancel_left heq) (by
      intro hcons
      exact absurd (List.cons.inj hcons).1 (by decide))
  | @sub parent sub hparent hsub hdirectory =>
    -- The archive of another folder stands among the entries of its parent.
    have hgz : (0x2F : UInt8) ∉ outfile_name sub.name := by
      rw [outfile_name, List.mem_append, not_or]
      exact ⟨sub.no_slash, by decide⟩
    rw [outfile_file_name] at heq
    obtain ⟨rfl, hname⟩ := append_slash_inj entry.no_slash hgz heq
    exact hfresh folder hparent sub hsub hdirectory entry hentry hname

/-- So what is listed is as it was. -/
theorem Kept.listed (h : Kept e disk₀ root disk) (hfresh : Fresh e disk₀ root)
    (hfolder : Reached e disk₀ root folder) {entry : EntryName}
    (hentry : entry ∈ entriesOf e folder) :
    disk (file_name folder entry) = disk₀ (file_name folder entry) :=
  h _ fun _ hother => listed_ne_outfile hfresh hfolder hentry hother

/-! The runs. -/

/-- What became of the disk below a folder: all that changed are archives of its folders, and they
are in order. -/
def Changed (e : FolderEnv) (disk₀ : Disk) (folder : Bytes) (disk disk' : Disk) : Prop :=
  ∀ path, disk' path = disk path ∨ ∃ sub, Reached e disk₀ folder sub ∧ path = outfile_name sub ∧
    Archived e disk₀ disk' sub

theorem Archived.of_eq (h : Archived e disk₀ disk folder)
    (heq : disk' (outfile_name folder) = disk (outfile_name folder)) :
    Archived e disk₀ disk' folder := by
  obtain ⟨buffers, hfile, hflatten⟩ := h
  exact ⟨buffers, heq.trans hfile, hflatten⟩

theorem Archived.changed {sub : Bytes} (h : Archived e disk₀ disk sub)
    (hchanged : Changed e disk₀ folder disk disk') : Archived e disk₀ disk' sub := by
  -- an archive that is written once more is the one of the same folder
  rcases hchanged (outfile_name sub) with heq | ⟨other, -, hpath, hother⟩
  · exact h.of_eq heq
  · rw [outfile_name_inj hpath]
    exact hother

theorem Changed.refl (e : FolderEnv) (disk₀ : Disk) (folder : Bytes) (disk : Disk) :
    Changed e disk₀ folder disk disk := fun _ => Or.inl rfl

theorem Changed.trans {disk'' : Disk} (h : Changed e disk₀ folder disk disk')
    (h' : Changed e disk₀ folder disk' disk'') : Changed e disk₀ folder disk disk'' := by
  intro path
  rcases h' path with heq | hsub
  · rcases h path with heq₀ | ⟨sub, hreached, rfl, harchived⟩
    · exact Or.inl (heq.trans heq₀)
    · exact Or.inr ⟨sub, hreached, rfl, harchived.of_eq heq⟩
  · exact Or.inr hsub

theorem Changed.of_sub {sub : Bytes} (h : Changed e disk₀ sub disk disk')
    (hsub : Reached e disk₀ folder sub) : Changed e disk₀ folder disk disk' := by
  intro path
  rcases h path with heq | ⟨other, hother, hpath, harchived⟩
  · exact Or.inl heq
  · exact Or.inr ⟨other, hsub.trans hother, hpath, harchived⟩

theorem Kept.changed (h : Kept e disk₀ root disk) (hfolder : Reached e disk₀ root folder)
    (hchanged : Changed e disk₀ folder disk disk') : Kept e disk₀ root disk' := by
  intro path hpath
  rcases hchanged path with heq | ⟨sub, hsub, hout, -⟩
  · exact heq.trans (h path hpath)
  · exact absurd hout (hpath sub (hfolder.trans hsub))

/-- How a call on a folder may end. -/
def Ends (e : FolderEnv) (disk₀ : Disk) (folder : Bytes) (disk : Disk) :
    Except FolderFault Disk → Prop
  | .ok disk' => Changed e disk₀ folder disk disk' ∧
    ∀ sub, Reached e disk₀ folder sub → Archived e disk₀ disk' sub
  | .error .failed => True
  | .error .overflow => ∃ sub, Reached e disk₀ folder sub ∧ 256 ≤ (outfile_name sub).length

/-- How its loop may end on the entries that are left. -/
def LoopEnds (e : FolderEnv) (disk₀ : Disk) (folder : Bytes) (entries : List EntryName)
    (disk : Disk) (buffers : List Bytes) : Except FolderFault (Disk × List Bytes) → Prop
  | .ok (disk', buffers') => Changed e disk₀ folder disk disk' ∧
    (∀ entry ∈ entries, disk₀ (file_name folder entry) = some .directory →
      ∀ sub, Reached e disk₀ (file_name folder entry) sub → Archived e disk₀ disk' sub) ∧
    buffers'.flatten = buffers.flatten ++ (contentsOf e disk₀ folder entries).flatten
  | .error .failed => True
  | .error .overflow => ∃ sub, Reached e disk₀ folder sub ∧ 256 ≤ (outfile_name sub).length

theorem copyLoop_flatten {out content : Bytes} {buffers buffers' : List Bytes}
    (h : copyLoop e out content buffers = some buffers') :
    buffers'.flatten = buffers.flatten ++ content := by
  fun_induction copyLoop e out content buffers with
  | case1 buffers =>
    rw [← Option.some.inj h, List.append_nil]
  | case2 content buffers hne hwrite ih =>
    rw [ih h, List.flatten_append, List.flatten_singleton, List.append_assoc,
      List.take_append_drop]
  | case3 content buffers hne hwrite => cases h

/-- The loop passes over the dots. -/
theorem entriesLoop_filter (folder : Bytes) (entries : List EntryName) (disk : Disk)
    (buffers : List Bytes) : entriesLoop e folder entries disk buffers =
      entriesLoop e folder (entries.filter fun entry => isDots entry = false) disk buffers := by
  induction entries generalizing disk buffers with
  | nil => rfl
  | cons entry entries ih =>
    cases hdots : isDots entry with
    | true =>
      have hskip : (entry :: entries).filter (fun entry => isDots entry = false) =
          entries.filter fun entry => isDots entry = false := by
        apply List.filter_cons_of_neg
        simp only [hdots, Bool.true_eq_false, decide_false, Bool.false_eq_true, not_false_eq_true]
      rw [entriesLoop, if_pos hdots, hskip, ih]
    | false =>
      have hkeep : (entry :: entries).filter (fun entry => isDots entry = false) =
          entry :: entries.filter fun entry => isDots entry = false := by
        apply List.filter_cons_of_pos
        simp only [hdots, decide_true]
      rw [hkeep, entriesLoop, entriesLoop]
      simp only [ih]

theorem loopEnds_skip {entry : EntryName} {entries : List EntryName} {buffers : List Bytes}
    {r : Except FolderFault (Disk × List Bytes)}
    (hdirectory : disk₀ (file_name folder entry) ≠ some .directory)
    (hcontents : contentsOf e disk₀ folder (entry :: entries) = contentsOf e disk₀ folder entries)
    (h : LoopEnds e disk₀ folder entries disk buffers r) :
    LoopEnds e disk₀ folder (entry :: entries) disk buffers r := by
  cases r with
  | error fault => cases fault <;> exact h
  | ok r =>
    obtain ⟨hchanged, harchived, hflatten⟩ := h
    refine ⟨hchanged, List.forall_mem_cons.mpr ⟨fun hd => absurd hd hdirectory, harchived⟩, ?_⟩
    rw [hcontents]
    exact hflatten

/-- A folder in the list has its archives before the entries after it are looked at, and they leave
them alone. -/
theorem loopEnds_directory {entry : EntryName} {entries : List EntryName} {buffers : List Bytes}
    {disk' : Disk} {r : Except FolderFault (Disk × List Bytes)}
    (hentry : entry ∈ entriesOf e folder)
    (hnode : disk₀ (file_name folder entry) = some .directory)
    (hends : Ends e disk₀ (file_name folder entry) disk (.ok disk'))
    (h : LoopEnds e disk₀ folder entries disk' buffers r) :
    LoopEnds e disk₀ folder (entry :: entries) disk buffers r := by
  cases r with
  | error fault => cases fault <;> exact h
  | ok r =>
    obtain ⟨hafter, harchived, hflatten⟩ := h
    have hchanged := hends.1.of_sub (Reached.root.sub hentry hnode)
    refine ⟨hchanged.trans hafter, List.forall_mem_cons.mpr ⟨fun _ sub hreached => ?_, harchived⟩,
      ?_⟩
    · exact (hends.2 sub hreached).changed hafter
    · simpa only [contentsOf, List.filterMap_cons, hnode] using hflatten

/-- What is copied from a file is put before what the loop copies from the files after it. -/
theorem loopEnds_file {entry : EntryName} {entries : List EntryName} {buffers buffers' : List Bytes}
    {content : Bytes} {r : Except FolderFault (Disk × List Bytes)}
    (hnode : disk₀ (file_name folder entry) = some (.file content))
    (hopen : e.fopen (file_name folder entry) = true)
    (hcopy : copyLoop e (outfile_name folder)
      (e.readable (file_name folder entry) content) buffers = some buffers')
    (h : LoopEnds e disk₀ folder entries disk buffers' r) :
    LoopEnds e disk₀ folder (entry :: entries) disk buffers r := by
  cases r with
  | error fault => cases fault <;> exact h
  | ok r =>
    obtain ⟨hchanged, harchived, hflatten⟩ := h
    refine ⟨hchanged, List.forall_mem_cons.mpr ⟨fun hd => ?_, harchived⟩, ?_⟩
    · rw [hnode] at hd
      cases hd
    · rw [hflatten, copyLoop_flatten hcopy, List.append_assoc]
      simp only [contentsOf, List.filterMap_cons, hnode, hopen, ↓reduceIte, List.flatten_cons]

/-- The loop does its part if the calls on the folders in it do. -/
theorem entriesLoop_ends (hfresh : Fresh e disk₀ root) (hfolder : Reached e disk₀ root folder)
    {entries : List EntryName} (hentries : ∀ entry ∈ entries, entry ∈ entriesOf e folder)
    (hdots : ∀ entry ∈ entries, isDots entry = false)
    (ih : ∀ entry ∈ entriesOf e folder, disk₀ (file_name folder entry) = some .directory →
      (file_name folder entry).length < 512 → ∀ disk, Kept e disk₀ root disk →
        Ends e disk₀ (file_name folder entry) disk
          (compress_folder e (file_name folder entry) disk))
    (hkept : Kept e disk₀ root disk) (buffers : List Bytes) :
    LoopEnds e disk₀ folder entries disk buffers
      (entriesLoop e folder entries disk buffers) := by
  induction entries generalizing disk buffers with
  | nil =>
    rw [entriesLoop]
    exact ⟨.refl e disk₀ folder disk, List.forall_mem_nil _, (List.append_nil _).symm⟩
  | cons entry entries ihloop =>
    rw [List.forall_mem_cons] at hentries hdots
    have hlisted := hkept.listed hfresh hfolder hentries.1
    have hnext {disk : Disk} (hkept : Kept e disk₀ root disk) (buffers : List Bytes) :=
      ihloop hentries.2 hdots.2 hkept buffers
    rw [entriesLoop, if_neg (by rw [hdots.1]; exact Bool.false_ne_true)]
    by_cases hlength : 512 ≤ (file_name folder entry).length
    · rw [if_pos hlength]
      trivial
    rw [if_neg hlength, hlisted]
    cases hnode : disk₀ (file_name folder entry) with
    | none =>
      apply loopEnds_skip _ _ (hnext hkept buffers)
      · rw [hnode]
        exact nofun
      · simp only [contentsOf, List.filterMap_cons, hnode]
    | some node =>
      cases node with
      | directory =>
        -- the call writes archives only, so the entries after it are as they were
        have hends := ih entry hentries.1 hnode (not_le.mp hlength) disk hkept
        have hsub : Reached e disk₀ folder (file_name folder entry) :=
          Reached.root.sub hentries.1 hnode
        dsimp only
        cases hcall : compress_folder e (file_name folder entry) disk with
        | error fault =>
          rw [hcall] at hends
          cases fault with
          | failed => trivial
          | overflow =>
            obtain ⟨other, hother, hlong⟩ := hends
            exact ⟨other, hsub.trans hother, hlong⟩
        | ok disk' =>
          rw [hcall] at hends
          have hkept' := hkept.changed hfolder (hends.1.of_sub hsub)
          exact loopEnds_directory hentries.1 hnode hends (hnext hkept' buffers)
      | file content =>
        dsimp only
        by_cases hopen : e.fopen (file_name folder entry) = true
        · rw [if_pos hopen]
          cases hcopy : copyLoop e (outfile_name folder)
              (e.readable (file_name folder entry) content) buffers with
          | none => trivial
          | some buffers' =>
            -- the disk waits until the archive is closed
            exact loopEnds_file hnode hopen hcopy (hnext hkept buffers')
        · rw [if_neg hopen]
          apply loopEnds_skip _ _ (hnext hkept buffers)
          · rw [hnode]
            exact nofun
          · simp only [contentsOf, List.filterMap_cons, hnode, hopen, ↓reduceIte,
              Bool.false_eq_true]

theorem Kept.update_outfile (h : Kept e disk₀ root disk) (hfolder : Reached e disk₀ root folder)
    (node : DiskNode) : Kept e disk₀ root (Function.update disk (outfile_name folder) node) := by
  intro path hpath
  rw [Function.update_of_ne (hpath folder hfolder)]
  exact h path hpath

/-- A call ends as its loop does, and closes the archive after it. -/
theorem ends_of_loopEnds {r : Except FolderFault (Disk × List Bytes)} :
    LoopEnds e disk₀ folder (entriesOf e folder)
      (Function.update disk (outfile_name folder) (some (.file []))) [] r →
    Ends e disk₀ folder disk
      (match r with
      | .error fault => .error fault
      | .ok (disk, buffers) =>
        .ok (Function.update disk (outfile_name folder)
          (some (.file (e.gzclose (outfile_name folder) buffers).2)))) := by
  intro h
  cases r with
  | error fault =>
    cases fault with
    | failed => trivial
    | overflow => exact h
  | ok r =>
    obtain ⟨disk', buffers⟩ := r
    obtain ⟨hchanged, hsubs, hflatten⟩ := h
    let final := Function.update disk' (outfile_name folder)
      (some (.file (e.gzclose (outfile_name folder) buffers).2))
    -- closing the archive of the folder leaves those below it alone
    have hfinal {sub : Bytes} (hsub : sub = folder ∨ Archived e disk₀ disk' sub) :
        Archived e disk₀ final sub := by
      by_cases hself : sub = folder
      · subst hself
        exact ⟨buffers, Function.update_self _ _ _, hflatten⟩
      · have hout : outfile_name sub ≠ outfile_name folder := fun h => hself (outfile_name_inj h)
        exact (hsub.resolve_left hself).of_eq (Function.update_of_ne hout _ _)
    constructor
    · intro path
      by_cases hpath : path = outfile_name folder
      · exact Or.inr ⟨folder, .root, hpath, hfinal (Or.inl rfl)⟩
      · have hstart : Function.update disk (outfile_name folder) (some (.file [])) path =
            disk path := Function.update_of_ne hpath _ _
        have hend : final path = disk' path := Function.update_of_ne hpath _ _
        rcases hchanged path with heq | ⟨sub, hsub, hname, harchived⟩
        · exact Or.inl (hend.trans (heq.trans hstart))
        · exact Or.inr ⟨sub, hsub, hname, hfinal (Or.inr harchived)⟩
    · intro sub hsub
      rcases hsub.cases_head with hself | ⟨entry, hentry, hdirectory, hbelow⟩
      · exact hfinal (Or.inl hself)
      · exact hfinal (Or.inr (hsubs entry hentry hdirectory sub hbelow))

/-- The induction is on how much longer the path of a folder can get. -/
theorem compress_folder_ends (hfresh : Fresh e disk₀ root) : ∀ n (folder : Bytes),
    512 - folder.length = n → Reached e disk₀ root folder → ∀ disk, Kept e disk₀ root disk →
      Ends e disk₀ folder disk (compress_folder e folder disk) := by
  intro n
  induction n using Nat.strong_induction_on with
  | _ n ih =>
    intro folder hn hfolder disk hkept
    have hself : Reached e disk₀ folder folder := .root
    rw [compress_folder]
    by_cases hlong : 256 ≤ (outfile_name folder).length
    · rw [if_pos hlong]
      exact ⟨folder, hself, hlong⟩
    rw [if_neg hlong]
    by_cases hopen : e.gzopen (outfile_name folder) = false
    · rw [if_pos hopen]
      trivial
    rw [if_neg hopen]
    split
    · trivial
    · trivial
    · rename_i entries hentries _
      have hstart := hkept.update_outfile hfolder (.file [])
      have hof : (entries.filter fun entry => isDots entry = false) = entriesOf e folder := by
        rw [entriesOf, hentries, Option.getD_some]
      have hloop := entriesLoop_ends hfresh hfolder (fun _ hentry => hentry)
        (fun entry hentry => of_decide_eq_true (List.mem_filter.mp hentry).2)
        (fun entry hentry hdirectory hlength disk hkept => by
          have hlonger := length_file_name folder entry
          exact ih _ (by omega) _ rfl (hfolder.sub hentry hdirectory) disk hkept)
        hstart []
      rw [← hof, ← entriesLoop_filter, hof] at hloop
      exact ends_of_loopEnds hloop

def dot : EntryName := ⟨bytes ".", by decide⟩
def lightFrame : EntryName := ⟨bytes "a.txt", by decide⟩
def flats : EntryName := ⟨bytes "s", by decide⟩
def flatFrame : EntryName := ⟨bytes "b.txt", by decide⟩

/-- A folder with a file and a folder with another file, on which every call succeeds. -/
def nightEnv : FolderEnv where
  readdir path :=
    if path = bytes "d" then some [dot, lightFrame, flats]
    else if path = bytes "d/s" then some [flatFrame]
    else none
  fopen _ := true
  readError _ := none
  gzopen _ := true
  gzwrite _ _ _ := true
  gzclose _ buffers := (true, Compress.gzipEncode buffers.flatten)
  gunzip := Compress.gzipDecode

def nightDisk : Disk := fun path =>
  if path = bytes "d" ∨ path = bytes "d/s" then some .directory
  else if path = bytes "d/a.txt" ∨ path = bytes "d/s/b.txt" then some (.file (bytes "a"))
  else none

theorem lawful_nightEnv : nightEnv.Lawful := fun _ buffers _ =>
  Compress.gzipDecode_gzipEncode buffers.flatten

theorem readable_nightEnv (path content : Bytes) : nightEnv.readable path content = content := rfl

theorem reached_nightDisk {folder : Bytes} (h : Reached nightEnv nightDisk (bytes "d") folder) :
    folder = bytes "d" ∨ folder = bytes "d/s" := by
  induction h with
  | root => exact Or.inl rfl
  | @sub parent entry _ hentry hdirectory ih =>
    rcases ih with rfl | rfl
    · have hentries : entriesOf nightEnv (bytes "d") = [lightFrame, flats] := rfl
      rw [hentries] at hentry
      rcases List.mem_pair.mp hentry with rfl | rfl
      · exact absurd hdirectory (by
          have hfile : nightDisk (file_name (bytes "d") lightFrame) = some (.file (bytes "a")) := rfl
          rw [hfile]
          exact nofun)
      · exact Or.inr rfl
    · have hentries : entriesOf nightEnv (bytes "d/s") = [flatFrame] := rfl
      rw [hentries] at hentry
      obtain rfl := List.mem_singleton.mp hentry
      exact absurd hdirectory (by
        have hfile : nightDisk (file_name (bytes "d/s") flatFrame) = some (.file (bytes "a")) := rfl
        rw [hfile]
        exact nofun)

theorem copyLoop_a (out : Bytes) (buffers : List Bytes) :
    copyLoop nightEnv out (bytes "a") buffers = some (buffers ++ [bytes "a"]) := by
  have hdrop : (bytes "a").drop CHUNK = [] := rfl
  have hwrite : nightEnv.gzwrite out buffers ((bytes "a").take CHUNK) = true := rfl
  rw [copyLoop, if_neg (by decide), if_pos hwrite, hdrop, copyLoop, if_pos rfl]
  rfl

theorem compress_folder_night :
    ∃ disk', compress_folder nightEnv (bytes "d") nightDisk = .ok disk' := by
  have hflats (disk : Disk) (hout : disk (bytes "d/s.gz") = none)
      (hfile : disk (bytes "d/s/b.txt") = some (.file (bytes "a"))) :
      ∃ disk', compress_folder nightEnv (bytes "d/s") disk = .ok disk' := by
    have hname : file_name (bytes "d/s") flatFrame = bytes "d/s/b.txt" := rfl
    have hdots : isDots flatFrame = false := rfl
    have hopens : nightEnv.gzopen (outfile_name (bytes "d/s")) = true := rfl
    have hout' : disk (outfile_name (bytes "d/s")) = none := hout
    have hentries : nightEnv.readdir (bytes "d/s") = some [flatFrame] := rfl
    have hupdated : Function.update disk (outfile_name (bytes "d/s")) (some (.file []))
        (bytes "d/s/b.txt") = some (.file (bytes "a")) := by
      rw [Function.update_of_ne (by decide)]
      exact hfile
    have hfopen : nightEnv.fopen (bytes "d/s/b.txt") = true := rfl
    rw [compress_folder, if_neg (by decide), if_neg (by rw [hopens]; decide), hout', hentries]
    simp only [entriesLoop, hdots, hname, hupdated, hfopen, readable_nightEnv, copyLoop_a,
      Bool.false_eq_true, ↓reduceIte]
    exact ⟨_, rfl⟩
  have hopens : nightEnv.gzopen (outfile_name (bytes "d")) = true := rfl
  have hout : nightDisk (outfile_name (bytes "d")) = none := rfl
  have hentries : nightEnv.readdir (bytes "d") = some [dot, lightFrame, flats] := rfl
  have hdot : isDots dot = true := rfl
  have hlight : isDots lightFrame = false := rfl
  have hflat : isDots flats = false := rfl
  have hlightName : file_name (bytes "d") lightFrame = bytes "d/a.txt" := rfl
  have hflatName : file_name (bytes "d") flats = bytes "d/s" := rfl
  have hfopen : nightEnv.fopen (bytes "d/a.txt") = true := rfl
  let start := Function.update nightDisk (outfile_name (bytes "d")) (some (.file []))
  have hstart {path : Bytes} (hpath : path ≠ bytes "d.gz") : start path = nightDisk path :=
    Function.update_of_ne hpath _ _
  obtain ⟨disk', hsub⟩ := hflats start (hstart (by decide)) (hstart (by decide))
  have hlightFile : start (bytes "d/a.txt") = some (.file (bytes "a")) := hstart (by decide)
  have hflatFolder : start (bytes "d/s") = some .directory := hstart (by decide)
  rw [compress_folder, if_neg (by decide), if_neg (by rw [hopens]; decide), hout, hentries]
  simp only [entriesLoop, hdot, hlight, hflat, hlightName, hflatName, hfopen, readable_nightEnv,
    copyLoop_a, Bool.false_eq_true, ↓reduceIte, start, hlightFile, hflatFolder, hsub]
  exact ⟨_, rfl⟩

end CompressFolder

end OpenAPT
