import OpenAPT.Bytes
import OpenAPT.Lib.Words

/-! The task list of `DownloadManager` and its file. The file is written line by line and read by
words, and it says nothing of the state of a task. -/
namespace OpenAPT

open Words

structure DownloadTask where
  url : Bytes
  filepath : Bytes
  completed : Bool
  paused : Bool
  downloaded_bytes : ℕ
  priority : Int32
  deriving DecidableEq

/-- A task as it is added. -/
def DownloadTask.pending (url filepath : Bytes) (priority : Int32) : DownloadTask :=
  ⟨url, filepath, false, false, 0, priority⟩

/-- `std::isspace` of the "C" locale. -/
def isspace (c : UInt8) : Bool := c = 32 || (9 ≤ c && c ≤ 13)

/-- The file `task_file_` by its content, and the list. -/
structure DownloadManager where
  task_file : Bytes
  tasks_ : List DownloadTask

/-- The loop of the constructor: `>> std::ws`, the test for the end, `>> url >> filepath`. -/
def readTasks (infile : Bytes) : List DownloadTask :=
  if h : infile.dropWhile isspace = [] then []
  else
    let url := extract isspace infile
    let filepath := extract isspace url.2
    have : filepath.2.length < infile.length :=
      (length_extract_le url.2).trans_lt (length_extract_lt h)
    if url.1 ≠ [] ∧ filepath.1 ≠ [] then .pending url.1 filepath.1 0 :: readTasks filepath.2
    else readTasks filepath.2
termination_by infile.length

/-- A line of the task file. -/
def taskLine (url filepath : Bytes) : Bytes := url ++ bytes " " ++ filepath ++ bytes "\n"

/-- What `save_task_list_to_file` writes. -/
def savedTasks (tasks : List DownloadTask) : Bytes :=
  tasks.flatMap fun task => taskLine task.url task.filepath

namespace DownloadManager

/-- The constructor, on a file that can be opened. -/
def opened (task_file : Bytes) : DownloadManager := ⟨task_file, readTasks task_file⟩

/-- The constructor; it throws if there is no file. -/
def open? (task_file : Option Bytes) : Option DownloadManager := task_file.map opened

def add_task (d : DownloadManager) (url filepath : Bytes) (priority : Int32) : DownloadManager where
  task_file := d.task_file ++ taskLine url filepath
  tasks_ := d.tasks_ ++ [.pending url filepath priority]

/-- `remove_task` with its result. The task stays in the list. -/
def remove_task (d : DownloadManager) (index : ℕ) : DownloadManager × Bool :=
  match d.tasks_[index]? with
  | some task => ({ d with tasks_ := d.tasks_.set index { task with completed := true } }, true)
  | none => (d, false)

theorem remove_task_of_some {d : DownloadManager} {index : ℕ} {task : DownloadTask}
    (h : d.tasks_[index]? = some task) :
    d.remove_task index =
      ({ d with tasks_ := d.tasks_.set index { task with completed := true } }, true) := by
  rw [remove_task, h]

theorem remove_task_of_none {d : DownloadManager} {index : ℕ} (h : d.tasks_[index]? = none) :
    d.remove_task index = (d, false) := by
  rw [remove_task, h]

/-- What the destructor leaves in the file. -/
def save_task_list_to_file (d : DownloadManager) : Bytes := savedTasks d.tasks_

/-- A new manager on the file of one that was destroyed. -/
def restarted (d : DownloadManager) : DownloadManager := opened d.save_task_list_to_file

def pairs (d : DownloadManager) : List (Bytes × Bytes) :=
  d.tasks_.map fun task => (task.url, task.filepath)

end DownloadManager

/-- The reader takes the words of the file in pairs. -/
theorem readTasks_eq_pairUp (infile : Bytes) :
    readTasks infile =
      (pairUp (words isspace infile)).map fun e => .pending e.1 e.2 0 := by
  induction infile using readTasks.induct with
  | case1 s h =>
    rw [readTasks, dif_pos h, (extract_eq_nil h).2]
    rfl
  | case2 s h url filepath hlt hne ih =>
    obtain ⟨-, hwords⟩ := words_eq_extract h
    have hrest : url.2.dropWhile isspace ≠ [] := fun hnil =>
      hne.2 (congrArg Prod.fst (extract_eq_nil hnil).1)
    obtain ⟨-, hwords'⟩ := words_eq_extract hrest
    rw [readTasks, dif_neg h, if_pos hne, ih, hwords, hwords']
    rfl
  | case3 s h url filepath hlt hne ih =>
    obtain ⟨hword, hwords⟩ := words_eq_extract h
    -- the file ends after the first word of the pair
    have hnil : url.2.dropWhile isspace = [] := by
      by_contra hrest
      exact hne ⟨hword.1, (words_eq_extract hrest).1.1⟩
    obtain ⟨hextract, hwords'⟩ := extract_eq_nil hnil
    have hend : filepath.2 = [] := congrArg Prod.snd hextract
    rw [readTasks, dif_neg h, if_neg hne, ih, hend, hwords, hwords']
    rfl

/-- The words of a task's line are those of its two strings. -/
def taskWords (task : DownloadTask) : List Bytes :=
  words isspace task.url ++ words isspace task.filepath

theorem words_savedTasks (tasks : List DownloadTask) :
    words isspace (savedTasks tasks) = tasks.flatMap taskWords := by
  induction tasks with
  | nil => rfl
  | cons task tasks ih =>
    have hspace : bytes " " = [32] := by decide
    have hnewline : bytes "\n" = [10] := by decide
    have hline : savedTasks (task :: tasks) =
        task.url ++ 32 :: (task.filepath ++ 10 :: savedTasks tasks) := by
      simp only [savedTasks, taskLine, List.flatMap_cons, hspace, hnewline, List.append_assoc,
        List.cons_append, List.nil_append]
    rw [hline, words_append_cons (by decide), words_append_cons (by decide), ih,
      List.flatMap_cons, taskWords, List.append_assoc]

/-- Both strings of the task are words for the reader. -/
def Readable (task : DownloadTask) : Prop :=
  IsWord isspace task.url ∧ IsWord isspace task.filepath

instance (task : DownloadTask) : Decidable (Readable task) :=
  inferInstanceAs (Decidable (_ ∧ _))

theorem Readable.taskWords_eq {task : DownloadTask} (h : Readable task) :
    taskWords task = [task.url, task.filepath] := by
  rw [taskWords, words_eq_singleton h.1, words_eq_singleton h.2, List.singleton_append]

/-- What the reader finds is readable. -/
theorem readable_of_mem_readTasks {infile : Bytes} {task : DownloadTask}
    (h : task ∈ readTasks infile) : Readable task := by
  rw [readTasks_eq_pairUp] at h
  obtain ⟨e, he, rfl⟩ := List.mem_map.mp h
  obtain ⟨hurl, hpath⟩ := mem_of_mem_pairUp he
  exact ⟨isWord_of_mem_words hurl, isWord_of_mem_words hpath⟩

namespace DownloadManager

theorem pairs_restarted (d : DownloadManager) :
    d.restarted.pairs = pairUp (d.tasks_.flatMap taskWords) := by
  rw [restarted, opened, pairs, readTasks_eq_pairUp, save_task_list_to_file, words_savedTasks,
    List.map_map]
  exact List.map_id' _

/-- A list survives a restart exactly when all of it is readable. -/
theorem pairs_restarted_iff (d : DownloadManager) :
    d.restarted.pairs = d.pairs ↔ ∀ task ∈ d.tasks_, Readable task := by
  constructor
  · intro h task htask
    have hmem : (task.url, task.filepath) ∈ d.restarted.pairs := by
      rw [h]
      exact List.mem_map.mpr ⟨task, htask, rfl⟩
    obtain ⟨read, hread, heq⟩ := List.mem_map.mp hmem
    have hreadable : Readable read := readable_of_mem_readTasks hread
    rwa [Readable, (Prod.mk.inj heq).1, (Prod.mk.inj heq).2] at hreadable
  · intro h
    have hwords : d.tasks_.flatMap taskWords =
        d.tasks_.flatMap fun task => [task.url, task.filepath] :=
      List.flatMap_congr fun task htask => (h task htask).taskWords_eq
    rw [pairs_restarted, hwords, pairUp_flatMap]
    rfl

/-- The `add_task` calls, each with its URL, its path and its priority. -/
def addAll (d : DownloadManager) (calls : List (Bytes × Bytes × Int32)) : DownloadManager :=
  calls.foldl (fun d c => d.add_task c.1 c.2.1 c.2.2) d

theorem tasks_addAll (d : DownloadManager) (calls : List (Bytes × Bytes × Int32)) :
    (d.addAll calls).tasks_ =
      d.tasks_ ++ calls.map fun c => .pending c.1 c.2.1 c.2.2 := by
  induction calls generalizing d with
  | nil => exact (List.append_nil _).symm
  | cons c calls ih =>
    rw [addAll, List.foldl_cons, ← addAll, ih, add_task, List.append_assoc, List.map_cons,
      List.singleton_append]

/-- A manager is opened on a file, tasks are added, and it is destroyed: a new one on the file has
the same list exactly when no added string is empty or has white space in it. -/
theorem restart_keeps_added_iff (task_file : Bytes) (calls : List (Bytes × Bytes × Int32)) :
    ((opened task_file).addAll calls).restarted.pairs = ((opened task_file).addAll calls).pairs ↔
      ∀ c ∈ calls, IsWord isspace c.1 ∧ IsWord isspace c.2.1 := by
  rw [pairs_restarted_iff, tasks_addAll]
  constructor
  · intro h c hc
    exact h (.pending c.1 c.2.1 c.2.2)
      (List.mem_append_right _ (List.mem_map.mpr ⟨c, hc, rfl⟩))
  · intro h task htask
    rcases List.mem_append.mp htask with hold | hnew
    · exact readable_of_mem_readTasks hold
    · obtain ⟨c, hc, rfl⟩ := List.mem_map.mp hnew
      exact h c hc

/-- A path with a blank in it is cut. -/
theorem path_with_blank_is_cut :
    ((opened []).addAll [(bytes "http://a/b", bytes "my file", 0)]).restarted.pairs ≠
      ((opened []).addAll [(bytes "http://a/b", bytes "my file", 0)]).pairs := by
  rw [pairs_restarted, pairs, tasks_addAll, opened, readTasks_eq_pairUp]
  decide

end DownloadManager

/-! Which task a reloaded one comes from: the words of the file carry the number of the line that
they stand on. -/

/-- The words of the file with their lines. -/
def originWords (tasks : List DownloadTask) : List (Bytes × ℕ) :=
  tasks.zipIdx.flatMap fun e => (taskWords e.1).map fun word => (word, e.2)

/-- The lines from which the two strings of each reloaded task were read. -/
def origins (tasks : List DownloadTask) : List (ℕ × ℕ) :=
  (pairUp (originWords tasks)).map fun e => (e.1.2, e.2.2)

/-- A task of the list is there again after the file was written and read: some reloaded task was
read from its line, and it is pending with the same strings. -/
def Reappears (tasks : List DownloadTask) (index : ℕ) : Prop :=
  ∃ (task : DownloadTask) (k : ℕ), tasks[index]? = some task ∧
    (readTasks (savedTasks tasks))[k]? = some (DownloadTask.pending task.url task.filepath 0) ∧
    (origins tasks)[k]? = some (index, index)

theorem map_fst_originWords (tasks : List DownloadTask) :
    (originWords tasks).map Prod.fst = words isspace (savedTasks tasks) := by
  have hzip : tasks.flatMap taskWords = tasks.zipIdx.flatMap fun e => taskWords e.1 := by
    conv_lhs => rw [← List.zipIdx_map_fst 0 tasks]
    rw [List.flatMap_map]
  rw [words_savedTasks, hzip, originWords, List.map_flatMap]
  apply List.flatMap_congr
  intro e _
  rw [List.map_map]
  exact List.map_id' _

/-- A task reappears exactly if its two strings are a pair of the marked words. -/
theorem reappears_iff_mem {tasks : List DownloadTask} {index : ℕ} :
    Reappears tasks index ↔ ∃ task, tasks[index]? = some task ∧
      ((task.url, index), (task.filepath, index)) ∈ pairUp (originWords tasks) := by
  have hread : readTasks (savedTasks tasks) =
      (pairUp (originWords tasks)).map fun e => DownloadTask.pending e.1.1 e.2.1 0 := by
    rw [readTasks_eq_pairUp, ← map_fst_originWords, pairUp_map, List.map_map]
    rfl
  constructor
  · intro ⟨task, k, htask, hreload, horigin⟩
    rw [hread, List.getElem?_map, Option.map_eq_some_iff] at hreload
    rw [origins, List.getElem?_map, Option.map_eq_some_iff] at horigin
    obtain ⟨e, he, hpending⟩ := hreload
    obtain ⟨e', he', hlines⟩ := horigin
    obtain rfl : e = e' := Option.some.inj (he.symm.trans he')
    refine ⟨task, htask, ?_⟩
    have heq : e = ((task.url, index), (task.filepath, index)) := by
      obtain ⟨hurl, hpath, -⟩ := DownloadTask.mk.inj hpending
      obtain ⟨hfirst, hsecond⟩ := Prod.mk.inj hlines
      exact Prod.ext (Prod.ext hurl hfirst) (Prod.ext hpath hsecond)
    rw [← heq]
    exact List.mem_of_getElem? he
  · intro ⟨task, htask, hmem⟩
    obtain ⟨k, hk⟩ := List.mem_iff_getElem?.mp hmem
    refine ⟨task, k, htask, ?_, ?_⟩
    · rw [hread, List.getElem?_map, hk]
      rfl
    · rw [origins, List.getElem?_map, hk]
      rfl

/-- The marked words of a line are those of its task. -/
theorem mem_originWords {tasks : List DownloadTask} {word : Bytes} {index : ℕ} :
    (word, index) ∈ originWords tasks ↔ ∃ task ∈ tasks[index]?, word ∈ taskWords task := by
  simp only [originWords, List.mem_flatMap, List.mem_map, Prod.mk.injEq, Prod.exists,
    List.mem_zipIdx_iff_getElem?, Option.mem_def]
  constructor
  · rintro ⟨task, i, htask, w, hw, rfl, rfl⟩
    exact ⟨task, htask, hw⟩
  · rintro ⟨task, htask, hw⟩
    exact ⟨task, index, htask, word, hw, rfl, rfl⟩

/-- The marked words before a line, on it and after it. -/
theorem originWords_split (before : List DownloadTask) (task : DownloadTask)
    (after : List DownloadTask) :
    ∃ rest, originWords (before ++ task :: after) =
        originWords before ++ (taskWords task).map (fun word => (word, before.length)) ++ rest ∧
      ∀ e ∈ rest, before.length < e.2 := by
  refine ⟨(after.zipIdx (before.length + 1)).flatMap fun e =>
    (taskWords e.1).map fun word => (word, e.2), ?_, ?_⟩
  · simp only [originWords, List.zipIdx_append, List.zipIdx_cons, List.flatMap_append,
      List.flatMap_cons, Nat.zero_add, List.append_assoc]
  · intro e he
    obtain ⟨i, hi, hword⟩ := List.mem_flatMap.mp he
    obtain ⟨word, _, rfl⟩ := List.mem_map.mp hword
    have hle := List.le_snd_of_mem_zipIdx hi
    dsimp only
    omega

/-- How many words come before a line. -/
def wordsBefore (tasks : List DownloadTask) (index : ℕ) : ℕ :=
  (words isspace (savedTasks (tasks.take index))).length

/-- A task reappears exactly when the reader can read its line and starts a pair there. -/
theorem reappears_iff {tasks : List DownloadTask} {index : ℕ} :
    Reappears tasks index ↔
      ∃ task ∈ tasks[index]?, Readable task ∧ Even (wordsBefore tasks index) := by
  rw [reappears_iff_mem]
  apply exists_congr
  intro task
  apply and_congr_right
  intro htask
  have hreadable (h : ((task.url, index), (task.filepath, index)) ∈ pairUp (originWords tasks)) :
      Readable task := by
    obtain ⟨hurl, hpath⟩ := mem_of_mem_pairUp h
    obtain ⟨task', htask', hurl⟩ := mem_originWords.mp hurl
    obtain ⟨task'', htask'', hpath⟩ := mem_originWords.mp hpath
    obtain rfl : task = task' := Option.some.inj (htask.symm.trans htask')
    obtain rfl : task = task'' := Option.some.inj (htask.symm.trans htask'')
    have hword (w : Bytes) (hw : w ∈ taskWords task) : IsWord isspace w :=
      (List.mem_append.mp hw).elim isWord_of_mem_words isWord_of_mem_words
    exact ⟨hword _ hurl, hword _ hpath⟩
  rw [← and_iff_right_of_imp hreadable]
  apply and_congr_right
  intro h
  obtain ⟨hlt, hget⟩ := List.getElem?_eq_some_iff.mp htask
  have hsplit : tasks = tasks.take index ++ task :: tasks.drop (index + 1) := by
    rw [← hget, List.getElem_cons_drop, List.take_append_drop]
  have hlength : (tasks.take index).length = index := List.length_take_of_le hlt.le
  obtain ⟨rest, hwords, hrest⟩ :=
    originWords_split (tasks.take index) task (tasks.drop (index + 1))
  rw [← hsplit, hlength, h.taskWords_eq] at hwords
  rw [hlength] at hrest
  have hbefore : ∀ e ∈ originWords (tasks.take index), ¬ e.2 = index := by
    rintro ⟨word, i⟩ he rfl
    obtain ⟨task', htask', -⟩ := mem_originWords.mp he
    rw [List.getElem?_take_eq_none (le_refl _)] at htask'
    cases htask'
  have hafter : ∀ e ∈ rest, ¬ e.2 = index := fun e he => (hrest e he).ne'
  have hcount : (originWords (tasks.take index)).length = wordsBefore tasks index := by
    rw [wordsBefore, ← map_fst_originWords, List.length_map]
  rw [hwords, ← hcount]
  simp only [List.map_cons, List.map_nil, List.append_assoc, List.cons_append, List.nil_append]
  exact mem_pairUp_block_iff hbefore hafter rfl rfl

/-- A manager with the indexes of the tasks that were removed, or downloaded to the end. -/
structure DownloadRun where
  manager : DownloadManager
  done : List ℕ

inductive DownloadCall
  | add_task (url filepath : Bytes) (priority : Int32)
  | remove_task (index : ℕ)
  | downloaded (index : ℕ)

namespace DownloadRun

def call (r : DownloadRun) : DownloadCall → DownloadRun
  | .add_task url filepath priority => { r with manager := r.manager.add_task url filepath priority }
  | .remove_task index =>
    let removed := r.manager.remove_task index
    ⟨removed.1, if removed.2 then r.done ++ [index] else r.done⟩
  | .downloaded index =>
    match r.manager.tasks_[index]? with
    -- `run` downloads a copy of the task, and the copy is what it marks completed
    | some task => if task.completed || task.paused then r else { r with done := r.done ++ [index] }
    | none => r

/-- The calls on a manager that was opened on a file. -/
def calls (task_file : Bytes) (cs : List DownloadCall) : DownloadRun :=
  cs.foldl call ⟨.opened task_file, []⟩

/-- No task that was removed or downloaded comes back with the next manager. -/
def StaysAway (r : DownloadRun) : Prop :=
  ∀ index ∈ r.done, ¬ Reappears r.manager.tasks_ index

/-- The file is written with the tasks that are done, so they stay away exactly when the reader
cannot read their lines, or reads them across its pairs. -/
theorem staysAway_iff (task_file : Bytes) (cs : List DownloadCall) :
    (calls task_file cs).StaysAway ↔ ∀ index ∈ (calls task_file cs).done,
      ∀ task ∈ (calls task_file cs).manager.tasks_[index]?,
        ¬ Readable task ∨ ¬ Even (wordsBefore (calls task_file cs).manager.tasks_ index) := by
  apply forall_congr'
  intro index
  apply imp_congr_right
  intro _
  rw [reappears_iff]
  constructor
  · intro h task htask
    rw [← not_and_or]
    exact fun hread => h ⟨task, htask, hread⟩
  · intro h ⟨task, htask, hread, heven⟩
    rcases h task htask with hnot | hodd
    · exact hnot hread
    · exact hodd heven

/-- A removed task is pending again. -/
theorem removed_task_reappears :
    ¬ (calls [] [.add_task (bytes "http://a/b") (bytes "b") 0, .remove_task 0]).StaysAway := by
  have hrun : calls [] [.add_task (bytes "http://a/b") (bytes "b") 0, .remove_task 0] =
      ⟨⟨taskLine (bytes "http://a/b") (bytes "b"), [⟨bytes "http://a/b", bytes "b", true, false, 0,
        0⟩]⟩, [0]⟩ := by
    rw [calls, DownloadManager.opened, readTasks_eq_pairUp]
    rfl
  rw [hrun]
  intro h
  apply h 0 (by decide)
  rw [reappears_iff]
  exact ⟨_, rfl, by decide, by decide⟩

/-- What holds of a run whose strings are words. -/
structure Plain (r : DownloadRun) : Prop where
  readable : ∀ task ∈ r.manager.tasks_, Readable task
  lt_length : ∀ index ∈ r.done, index < r.manager.tasks_.length

/-- A call that adds words only. -/
def AddsWords : DownloadCall → Prop
  | .add_task url filepath _ => IsWord isspace url ∧ IsWord isspace filepath
  | .remove_task _ | .downloaded _ => True

theorem Plain.call {r : DownloadRun} (h : Plain r) {c : DownloadCall} (hc : AddsWords c) :
    Plain (r.call c) := by
  cases c with
  | add_task url filepath priority =>
    constructor
    · intro task htask
      rcases List.mem_append.mp htask with hold | hnew
      · exact h.readable task hold
      · rw [List.mem_singleton.mp hnew]
        exact hc
    · intro index hindex
      have hlt := h.lt_length index hindex
      simp only [DownloadRun.call, DownloadManager.add_task, List.length_append,
        List.length_singleton]
      omega
  | remove_task index =>
    rw [DownloadRun.call]
    cases htask : r.manager.tasks_[index]? with
    | none =>
      rw [DownloadManager.remove_task_of_none htask]
      exact h
    | some task =>
      rw [DownloadManager.remove_task_of_some htask]
      have hmem := List.mem_of_getElem? htask
      obtain ⟨hlt, -⟩ := List.getElem?_eq_some_iff.mp htask
      constructor
      · intro task' htask'
        rcases List.mem_or_eq_of_mem_set htask' with hold | rfl
        · exact h.readable task' hold
        · exact h.readable task hmem
      · intro i hi
        rw [List.length_set]
        rcases List.mem_append.mp hi with hi | hi
        · exact h.lt_length i hi
        · rwa [List.mem_singleton.mp hi]
  | downloaded index =>
    simp only [DownloadRun.call]
    split
    next task htask =>
      split_ifs
      · exact h
      · refine ⟨h.readable, fun i hi => ?_⟩
        rcases List.mem_append.mp hi with hi | hi
        · exact h.lt_length i hi
        · rw [List.mem_singleton.mp hi]
          exact (List.getElem?_eq_some_iff.mp htask).1
    next => exact h

theorem plain_calls (task_file : Bytes) {cs : List DownloadCall} (hcs : ∀ c ∈ cs, AddsWords c) :
    Plain (calls task_file cs) := by
  have hstart : Plain ⟨.opened task_file, []⟩ :=
    ⟨fun _ htask => readable_of_mem_readTasks htask, fun _ hi => absurd hi List.not_mem_nil⟩
  have hfold (r : DownloadRun) (hr : Plain r) : Plain (cs.foldl call r) := by
    induction cs generalizing r with
    | nil => exact hr
    | cons c cs ih =>
      exact ih (fun d hd => hcs d (List.mem_cons_of_mem c hd)) _
        (hr.call (hcs c List.mem_cons_self))
  exact hfold _ hstart

theorem even_wordsBefore {tasks : List DownloadTask} (h : ∀ task ∈ tasks, Readable task)
    (index : ℕ) : Even (wordsBefore tasks index) := by
  have hwords : (tasks.take index).flatMap taskWords =
      (tasks.take index).flatMap fun task => [task.url, task.filepath] :=
    List.flatMap_congr fun task htask => (h task (List.mem_of_mem_take htask)).taskWords_eq
  rw [wordsBefore, words_savedTasks, hwords]
  induction tasks.take index with
  | nil => exact Even.zero
  | cons task tasks ih =>
    rw [List.flatMap_cons, List.length_append]
    exact Even.add ⟨1, rfl⟩ ih

/-- With words for strings every task that was removed or downloaded comes back. -/
theorem staysAway_iff_nothing_done (task_file : Bytes) {cs : List DownloadCall}
    (hcs : ∀ c ∈ cs, AddsWords c) :
    (calls task_file cs).StaysAway ↔ (calls task_file cs).done = [] := by
  have h := plain_calls task_file hcs
  constructor
  · intro haway
    rw [List.eq_nil_iff_forall_not_mem]
    intro index hindex
    apply haway index hindex
    rw [reappears_iff]
    have hlt := h.lt_length index hindex
    exact ⟨_, List.getElem?_eq_getElem hlt, h.readable _ (List.getElem_mem hlt),
      even_wordsBefore h.readable index⟩
  · intro hnone index hindex
    rw [hnone] at hindex
    exact absurd hindex List.not_mem_nil

end DownloadRun

end OpenAPT
