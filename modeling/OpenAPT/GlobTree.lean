import OpenAPT.Glob
import OpenAPT.Lib.KeyedList

/-! `glob` and `rglob` over a tree of directories. The tree of an absolute pattern is that of the
root, the tree of a relative one is that of the current directory. -/
namespace OpenAPT

namespace Glob

/-- The names of a path, the last one first; it is empty if the text ends in a slash. -/
abbrev Path := List Bytes

/-- A file, or a directory with its entries in the order of `directory_iterator`. -/
inductive Node
  | file
  | directory (entries : List (Bytes × Node))

/-- `path::string`. -/
def pathText (absolute : Bool) : Path → Bytes
  | [] => if absolute then [0x2F] else []
  | [name] => if absolute then 0x2F :: name else name
  | name :: dirname => pathText absolute dirname ++ 0x2F :: name

/-- What a path is followed to. With a slash at its end it leads to the directory itself. -/
def child (name : Bytes) : Node → Option Node
  | .file => none
  | .directory entries =>
    if name = [] then some (.directory entries) else KeyedList.find? name entries

/-- What is at a path. -/
def lookup (root : Node) : Path → Option Node
  | [] => some root
  | name :: dirname => (lookup root dirname).bind (child name)

def Node.isDirectory : Node → Bool
  | .file => false
  | .directory _ => true

/-- A pattern. The names `.` and `..` are left out, and the tilde at the start of a relative pattern
that `expand_tilde` replaces. -/
structure Pattern where
  absolute : Bool
  names : Path
  text_ne : pathText absolute names ≠ []
  no_slash : ∀ name ∈ names, 0x2F ∉ name
  no_dots : ∀ name ∈ names, name ≠ bytes "." ∧ name ≠ bytes ".."
  no_tilde : (pathText absolute names).head? ≠ some 0x7E
  folders : ∀ name ∈ names.tail, name ≠ []

def magicText : Bytes := bytes "([*?[])"

def has_magic (pathname : Bytes) : Bool :=
  (EcmaScript.compile magicText).any fun a => a.search pathname

def hiddenText : Bytes := bytes "^(.*\\/)*\\.[^\\.\\/]+\\/*$"

def is_hidden (pathname : Bytes) : Bool :=
  (EcmaScript.compile hiddenText).any fun a => a.isMatch pathname

def is_recursive (pattern : Bytes) : Bool := pattern = bytes "**"

/-- The entries that the iterator gives, by their names. -/
def entriesOf (dironly : Bool) : Node → List (Bytes × Node)
  | .file => []
  | .directory entries => entries.filter fun e => !dironly || e.2.isDirectory

/-- `iter_directory`. An iterator on something that is no directory throws, which is caught. -/
def iter_directory (root : Node) (dirname : Path) (dironly : Bool) : List Path :=
  ((lookup root dirname).toList.flatMap (entriesOf dironly)).map fun e => e.1 :: dirname

mutual

/-- `rlistdir` below the node at `dirname`. -/
def rlistdir (absolute : Bool) (dirname : Path) (dironly : Bool) : Node → List Path
  | .file => []
  | .directory entries => rlistEntries absolute dirname dironly entries

/-- Its loop. -/
def rlistEntries (absolute : Bool) (dirname : Path) (dironly : Bool) :
    List (Bytes × Node) → List Path
  | [] => []
  | e :: entries =>
    rlistEntry absolute dirname dironly e ++ rlistEntries absolute dirname dironly entries

/-- One turn of it. -/
def rlistEntry (absolute : Bool) (dirname : Path) (dironly : Bool) : Bytes × Node → List Path
  | (name, node) =>
    if dironly && !node.isDirectory then []
    -- nothing below a hidden directory is looked at
    else if is_hidden (pathText absolute (name :: dirname)) then []
    else (name :: dirname) :: rlistdir absolute (name :: dirname) dironly node

end

def glob2 (root : Node) (absolute : Bool) (dirname : Path) (dironly : Bool) : List Path :=
  (lookup root dirname).toList.flatMap (rlistdir absolute dirname dironly)

/-- `glob1`, which throws where the regular expression is refused. -/
def glob1 (root : Node) (absolute : Bool) (dirname : Path) (pattern : Bytes) (dironly : Bool) :
    Option (List Bytes) :=
  filter pattern (((iter_directory root dirname dironly).filter fun n =>
    !is_hidden (pathText absolute n)).map fun n => n.headD [])

def is_directory (root : Node) (p : Path) : Bool := (lookup root p).any Node.isDirectory

def glob0 (root : Node) (dirname : Path) (basename : Bytes) : List Bytes :=
  -- a pattern that ends in a slash matches only directories
  if basename = [] then if is_directory root dirname then [basename] else []
  -- `exists` of a name without magic: hidden names are found too
  else if (lookup root (basename :: dirname)).isSome then [basename] else []

/-- What is found in one directory. -/
def glob_in_dir (root : Node) (absolute recursive dironly : Bool) (basename : Bytes) (d : Path) :
    Option (List Path) :=
  if has_magic basename then
    -- without `rglob`, two stars are an ordinary pattern
    if recursive && is_recursive basename then some (glob2 root absolute d dironly)
    else (glob1 root absolute d basename dironly).map fun names => names.map (· :: d)
  else some ((glob0 root d basename).map (· :: d))

/-- The loop over the directories. -/
def globDirs (root : Node) (absolute recursive dironly : Bool) (basename : Bytes) :
    List Path → Option (List Path)
  | [] => some []
  | d :: dirs =>
    (glob_in_dir root absolute recursive dironly basename d).bind fun found =>
      (globDirs root absolute recursive dironly basename dirs).map (found ++ ·)

/-- `glob`. The path without names is the root directory, or the empty text. -/
def glob (root : Node) (absolute recursive : Bool) : Bool → Path → Option (List Path)
  | _, [] => some (if absolute && is_directory root [] then [[]] else [])
  | dironly, basename :: dirname =>
    if has_magic (pathText absolute (basename :: dirname)) then
      -- the directories first, which are taken as they stand where nothing in them is magic; the
      -- one of a relative pattern of one name is the current directory
      (if has_magic (pathText absolute dirname) then glob root absolute recursive true dirname
        else some [dirname]).bind (globDirs root absolute recursive dironly basename)
    else if basename = [] then
      some (if is_directory root dirname then [basename :: dirname] else [])
    else some (if (lookup root (basename :: dirname)).isSome then [basename :: dirname] else [])

/-! ### What is magic, and what is hidden -/

/-- The expression of `is_hidden`. -/
def hiddenRegex : Regex UInt8 :=
  .seq .atBegin (.seq (.star (.seq (.star (.cls EcmaScript.notLineEnd))
    (.seq (EcmaScript.single 0x2F) .eps))) (.seq (EcmaScript.single 0x2E)
      (.seq (.seq (EcmaScript.ofItems true [.one 0x2E, .one 0x2F])
        (.star (EcmaScript.ofItems true [.one 0x2E, .one 0x2F])))
        (.seq (.star (EcmaScript.single 0x2F)) (.seq .atEnd .eps)))))

theorem compile_hiddenText : EcmaScript.compile hiddenText = some hiddenRegex := rfl

theorem compile_magicText : EcmaScript.compile magicText = some
    (.seq (.seq (EcmaScript.ofItems false [.one 0x2A, .one 0x3F, .one 0x5B]) .eps) .eps) := rfl

theorem has_magic_iff (s : Bytes) : has_magic s = true ↔ ∃ c ∈ s, c ∈ bytes "*?[" := by
  rw [has_magic, compile_magicText, Option.any_some, Regex.search_iff]
  have hclass (c : UInt8) :
      ([EcmaScript.Item.one 0x2A, .one 0x3F, .one 0x5B].any (·.has c) != false) = true ↔
        c ∈ bytes "*?[" := by
    revert c
    exact Readers.forall_byte (by decide +kernel)
  constructor
  · rintro ⟨u, t, hu, v, ⟨w, ⟨c, hc, rfl⟩, -⟩, -⟩
    exact ⟨c, hu.subset List.mem_cons_self, (hclass c).mp hc⟩
  · intro ⟨c, hc, hmagic⟩
    obtain ⟨before, after, rfl⟩ := List.append_of_mem hc
    exact ⟨c :: after, after, List.suffix_append _ _, after,
      ⟨after, ⟨c, (hclass c).mpr hmagic, rfl⟩, rfl⟩, rfl⟩

/-- The parts that end in a slash: nothing, or a text without a line end whose last character is a
slash. -/
theorem runs_directories (n : ℕ) (s u : Bytes) :
    Regex.Runs n (.star (.seq (.star (.cls EcmaScript.notLineEnd))
      (.seq (EcmaScript.single 0x2F) .eps))) s u ↔
    s = u ∨ ∃ a, s = a ++ 0x2F :: u ∧ ∀ c ∈ a, EcmaScript.notLineEnd c = true := by
  have hpart (s t : Bytes) : Regex.Runs n (.seq (.star (.cls EcmaScript.notLineEnd))
      (.seq (EcmaScript.single 0x2F) .eps)) s t ↔
      ∃ a, s = a ++ 0x2F :: t ∧ ∀ c ∈ a, EcmaScript.notLineEnd c = true := by
    constructor
    · intro ⟨v, hv, w, ⟨c, hc, hcons⟩, hw⟩
      obtain ⟨a, rfl, ha⟩ := (Regex.runs_star_cls n _ s v).mp hv
      have hslash : c = 0x2F := of_decide_eq_true hc
      have hend : w = t := hw
      exact ⟨a, by rw [hcons, hslash, hend], ha⟩
    · intro ⟨a, hs, ha⟩
      exact ⟨0x2F :: t, (Regex.runs_star_cls n _ s _).mpr ⟨a, hs, ha⟩, t,
        ⟨0x2F, decide_eq_true rfl, rfl⟩, rfl⟩
  constructor
  · intro h
    have hstar : Relation.ReflTransGen (Regex.Runs n (.seq (.star (.cls EcmaScript.notLineEnd))
      (.seq (EcmaScript.single 0x2F) .eps))) s u := h
    induction hstar with
    | refl => exact Or.inl rfl
    | @tail v w hrest hlast ih =>
      -- a slash that ends an earlier part is no line end either, so two parts make one
      obtain ⟨a, rfl, ha⟩ := (hpart v w).mp hlast
      right
      rcases ih hrest with rfl | ⟨b, rfl, hb⟩
      · exact ⟨a, rfl, ha⟩
      · refine ⟨b ++ 0x2F :: a, by rw [List.append_assoc, List.cons_append], ?_⟩
        intro c hc
        rcases List.mem_append.mp hc with hc | hc
        · exact hb c hc
        · rcases List.mem_cons.mp hc with rfl | hc
          · rfl
          · exact ha c hc
  · rintro (rfl | h)
    · exact Relation.ReflTransGen.refl
    · exact Relation.ReflTransGen.single ((hpart s u).mpr h)

/-- A name that starts with its only dot, in a path without a line end. -/
def Hidden : Path → Prop
  | [] => False
  | name :: dirname => (∃ w, name = 0x2E :: w ∧ w ≠ [] ∧ 0x2E ∉ w) ∧
      ∀ n ∈ dirname, ∀ c ∈ n, EcmaScript.notLineEnd c = true

/-- A name that a directory can have. -/
structure IsName (name : Bytes) : Prop where
  ne_nil : name ≠ []
  no_slash : 0x2F ∉ name

/-- The last slash of a text. -/
theorem last_slash {a b v w : Bytes} (hv : 0x2F ∉ v) (hw : 0x2F ∉ w)
    (h : a ++ 0x2F :: v = b ++ 0x2F :: w) : a = b ∧ v = w := by
  -- one of the two texts before a slash starts with the other
  rcases List.append_eq_append_iff.mp h with ⟨l, rfl, hl⟩ | ⟨l, rfl, hl⟩
  · cases l with
    | nil => exact ⟨(List.append_nil a).symm, (List.cons.inj hl).2⟩
    | cons c l =>
      have hmem : 0x2F ∈ v := by
        rw [(List.cons.inj hl).2]
        exact List.mem_append_right _ List.mem_cons_self
      exact absurd hmem hv
  · cases l with
    | nil => exact ⟨List.append_nil b, (List.cons.inj hl).2.symm⟩
    | cons c l =>
      have hmem : 0x2F ∈ w := by
        rw [(List.cons.inj hl).2]
        exact List.mem_append_right _ List.mem_cons_self
      exact absurd hmem hw

/-- A name does not end in a slash, nor does a text that it ends. -/
theorem append_name_ne {name : Bytes} (h : IsName name) (dir s : Bytes) :
    dir ++ name ≠ s ++ [0x2F] := by
  intro heq
  have hlast : name.getLast? = some 0x2F := by
    rw [← List.getLast?_append_of_ne_nil dir h.ne_nil, heq, List.getLast?_concat]
  exact h.no_slash (List.mem_of_getLast? hlast)

/-- What stands before the last name. -/
def directoryText (absolute : Bool) (dirname : Path) : Bytes :=
  if dirname = [] then if absolute then [0x2F] else [] else pathText absolute dirname ++ [0x2F]

theorem pathText_cons (absolute : Bool) (name : Bytes) (dirname : Path) :
    pathText absolute (name :: dirname) = directoryText absolute dirname ++ name := by
  cases dirname with
  | nil => cases absolute <;> rfl
  | cons n dirname =>
    rw [directoryText, if_neg (List.cons_ne_nil n dirname), List.append_assoc]
    rfl

theorem directoryText_eq_nil_or (absolute : Bool) (dirname : Path) :
    directoryText absolute dirname = [] ∨ ∃ a, directoryText absolute dirname = a ++ [0x2F] := by
  unfold directoryText
  split_ifs with h habsolute
  · exact Or.inr ⟨[], rfl⟩
  · exact Or.inl rfl
  · exact Or.inr ⟨_, rfl⟩

theorem notLineEnd_directoryText (absolute : Bool) (dirname : Path) :
    (∀ c ∈ directoryText absolute dirname, EcmaScript.notLineEnd c = true) ↔
      ∀ n ∈ dirname, ∀ c ∈ n, EcmaScript.notLineEnd c = true := by
  have hslash : ∀ c ∈ [(0x2F : UInt8)], EcmaScript.notLineEnd c = true :=
    List.forall_mem_singleton.mpr rfl
  induction dirname with
  | nil =>
    refine iff_of_true ?_ fun n hn => absurd hn List.not_mem_nil
    cases absolute with
    | true => exact hslash
    | false => exact fun c hc => absurd hc List.not_mem_nil
  | cons n dirname ih =>
    rw [directoryText, if_neg (List.cons_ne_nil _ _), pathText_cons, List.forall_mem_append,
      and_iff_left hslash, List.forall_mem_append, List.forall_mem_cons, and_comm]
    exact and_congr_right fun _ => ih

/-- The class of the names in the regular expression. -/
theorem hasNoDotOrSlash_iff (c : UInt8) :
    ([EcmaScript.Item.one 0x2E, .one 0x2F].any (·.has c) != true) = true ↔
      c ≠ 0x2E ∧ c ≠ 0x2F := by
  revert c
  exact Readers.forall_byte (by decide +kernel)

/-- A text that ends in a name and is hidden: the name has a dot at its start and no other one. -/
theorem name_of_is_hidden {dir name : Bytes} (h : IsName name)
    (hdir : dir = [] ∨ ∃ a, dir = a ++ [0x2F]) (hhidden : is_hidden (dir ++ name) = true) :
    (∃ w, name = 0x2E :: w ∧ w ≠ [] ∧ 0x2E ∉ w) ∧
      ∀ c ∈ dir, EcmaScript.notLineEnd c = true := by
  rw [is_hidden, compile_hiddenText, Option.any_some, Regex.isMatch_iff] at hhidden
  obtain ⟨s₀, ⟨rfl, -⟩, s₁, hdirs, s₂, ⟨dot, hdot, rfl⟩, s₃, ⟨s₄, ⟨c, hc, rfl⟩, hw⟩, s₅, hslashes,
    s₆, ⟨rfl, rfl⟩, -⟩ := hhidden
  obtain rfl : dot = 0x2E := of_decide_eq_true hdot
  obtain ⟨w, rfl, hitems⟩ := (Regex.runs_star_cls _ _ _ _).mp hw
  obtain ⟨slashes, rfl, hall⟩ := (Regex.runs_star_cls _ _ _ _).mp hslashes
  have hrest : ∀ x ∈ c :: w, x ≠ 0x2E ∧ x ≠ 0x2F := by
    intro x hx
    rcases List.mem_cons.mp hx with rfl | hx
    · exact (hasNoDotOrSlash_iff x).mp hc
    · exact (hasNoDotOrSlash_iff x).mp (hitems x hx)
  have hnodot : 0x2E ∉ c :: w := fun hx => (hrest _ hx).1 rfl
  have hnoslash : 0x2F ∉ 0x2E :: c :: w := by
    intro hx
    rcases List.mem_cons.mp hx with heq | hx
    · exact absurd heq (by decide)
    · exact (hrest _ hx).2 rfl
  -- the name does not end in a slash, so no slash is left at the end
  obtain rfl : slashes = [] := by
    rcases List.eq_nil_or_concat slashes with hnil | ⟨more, last, rfl⟩
    · exact hnil
    · obtain rfl : last = 0x2F := of_decide_eq_true (hall last (by simp))
      rcases (runs_directories _ _ _).mp hdirs with heq | ⟨a, heq, -⟩
      · exact absurd (heq.trans (by simp)) (append_name_ne h dir (0x2E :: c :: (w ++ more)))
      · exact absurd (heq.trans (by simp))
          (append_name_ne h dir (a ++ 0x2F :: 0x2E :: c :: (w ++ more)))
  rw [List.append_nil, List.append_nil] at hdirs
  rcases hdir with rfl | ⟨b, rfl⟩
  · -- the text is only the name, and no part of it ends in a slash
    refine ⟨⟨c :: w, ?_, List.cons_ne_nil c w, hnodot⟩, fun x hx => absurd hx List.not_mem_nil⟩
    rcases (runs_directories _ _ _).mp hdirs with heq | ⟨a, heq, -⟩
    · exact heq
    · have hmem : 0x2F ∈ name := by
        rw [← List.nil_append name, heq]
        exact List.mem_append_right a List.mem_cons_self
      exact absurd hmem h.no_slash
  · rw [List.append_assoc, List.singleton_append] at hdirs
    rcases (runs_directories _ _ _).mp hdirs with heq | ⟨a, heq, ha⟩
    · refine absurd ?_ hnoslash
      rw [← heq]
      exact List.mem_append_right b List.mem_cons_self
    · obtain ⟨rfl, hname⟩ := last_slash h.no_slash hnoslash heq
      refine ⟨⟨c :: w, hname, List.cons_ne_nil c w, hnodot⟩, ?_⟩
      rw [List.forall_mem_append]
      exact ⟨ha, List.forall_mem_singleton.mpr rfl⟩

theorem is_hidden_of_name {dir name : Bytes} (h : IsName name)
    (hdir : dir = [] ∨ ∃ a, dir = a ++ [0x2F])
    (hname : ∃ w, name = 0x2E :: w ∧ w ≠ [] ∧ 0x2E ∉ w)
    (hlines : ∀ c ∈ dir, EcmaScript.notLineEnd c = true) : is_hidden (dir ++ name) = true := by
  obtain ⟨w, rfl, hne, hnodot⟩ := hname
  rw [is_hidden, compile_hiddenText, Option.any_some, Regex.isMatch_iff]
  cases w with
  | nil => exact absurd rfl hne
  | cons c w =>
    have hclass (x : UInt8) (hx : x ∈ c :: w) :
        ([EcmaScript.Item.one 0x2E, .one 0x2F].any (·.has x) != true) = true := by
      apply (hasNoDotOrSlash_iff x).mpr
      constructor
      · rintro rfl
        exact hnodot hx
      · rintro rfl
        exact h.no_slash (List.mem_cons_of_mem _ hx)
    -- the run takes the directories as one part and leaves no slash at the end
    have hdirs : dir ++ 0x2E :: c :: w = 0x2E :: c :: w ∨
        ∃ a, dir ++ 0x2E :: c :: w = a ++ 0x2F :: 0x2E :: c :: w ∧
          ∀ x ∈ a, EcmaScript.notLineEnd x = true := by
      rcases hdir with rfl | ⟨a, rfl⟩
      · exact Or.inl (List.nil_append _)
      · rw [List.forall_mem_append] at hlines
        exact Or.inr ⟨a, by rw [List.append_assoc, List.singleton_append], hlines.1⟩
    refine ⟨_, ⟨rfl, rfl⟩, 0x2E :: c :: w, ?_, c :: w, ⟨0x2E, decide_eq_true rfl, rfl⟩, [],
      ⟨w, ⟨c, hclass c List.mem_cons_self, rfl⟩, ?_⟩, [], ?_, [], ⟨rfl, rfl⟩, rfl⟩
    · exact (runs_directories _ _ _).mpr hdirs
    · apply (Regex.runs_star_cls _ _ _ _).mpr
      exact ⟨w, (List.append_nil w).symm, fun x hx => hclass x (List.mem_cons_of_mem c hx)⟩
    · exact Relation.ReflTransGen.refl

/-- `is_hidden` of a text that ends in a name: a name with another dot is not hidden. -/
theorem is_hidden_append {dir name : Bytes} (h : IsName name)
    (hdir : dir = [] ∨ ∃ a, dir = a ++ [0x2F]) :
    is_hidden (dir ++ name) = true ↔ (∃ w, name = 0x2E :: w ∧ w ≠ [] ∧ 0x2E ∉ w) ∧
      ∀ c ∈ dir, EcmaScript.notLineEnd c = true :=
  ⟨name_of_is_hidden h hdir, fun hname => is_hidden_of_name h hdir hname.1 hname.2⟩

theorem is_hidden_iff {name : Bytes} (h : IsName name) (absolute : Bool) (dirname : Path) :
    is_hidden (pathText absolute (name :: dirname)) = true ↔ Hidden (name :: dirname) := by
  rw [pathText_cons, is_hidden_append h (directoryText_eq_nil_or absolute dirname),
    notLineEnd_directoryText]
  rfl

/-! ### What is found -/

/-- No two entries of a directory have one name, and all are names. -/
inductive IsTree : Node → Prop
  | file : IsTree .file
  | directory {entries : List (Bytes × Node)} (names : (entries.map Prod.fst).Nodup)
    (valid : ∀ e ∈ entries, IsName e.1) (children : ∀ e ∈ entries, IsTree e.2) :
    IsTree (.directory entries)

/-- A path that ends in a name that is not hidden. -/
def Shown : Path → Prop
  | [] => False
  | name :: dirname => name ≠ [] ∧ ¬ Hidden (name :: dirname)

/-- The paths below `d` neither whose name nor any name between is hidden. -/
inductive Visible (d : Path) : Path → Prop
  | child {name : Bytes} (hshown : Shown (name :: d)) : Visible d (name :: d)
  | further {p : Path} {name : Bytes} (hp : Visible d p) (hshown : Shown (name :: p)) :
      Visible d (name :: p)

/-- The paths that one name of a pattern selects below `d`: a name without magic only itself, be it
hidden or empty, one with magic the names that match it and are not hidden, and two stars of `rglob`
all that is visible. -/
def Extends (recursive : Bool) (basename : Bytes) (d p : Path) : Prop :=
  if has_magic basename then
    if recursive && is_recursive basename then Visible d p
    else ∃ name, p = name :: d ∧ fnmatch name basename = some true ∧ Shown p
  else p = basename :: d

/-- The paths that a pattern selects. -/
def Selected (recursive : Bool) : Path → Path → Prop
  | [], p => p = []
  | basename :: pattern, p => ∃ d, Selected recursive pattern d ∧ Extends recursive basename d p

section Tree

variable {root n m : Node} {d p : Path} {name : Bytes} {absolute dironly : Bool}

theorem find?_iff_mem {entries : List (Bytes × Node)} (hnodup : (entries.map Prod.fst).Nodup) :
    KeyedList.find? name entries = some n ↔ (name, n) ∈ entries := by
  constructor
  · exact KeyedList.mem_of_find?
  · intro h
    induction entries with
    | nil => exact absurd h List.not_mem_nil
    | cons e entries ih =>
      obtain ⟨hhead, hrest⟩ := List.nodup_cons.mp hnodup
      rcases List.mem_cons.mp h with heq | hmem
      · rw [← heq, KeyedList.find?, if_pos rfl]
      · have hne : e.1 ≠ name := by
          intro heq
          exact hhead (heq ▸ List.mem_map_of_mem hmem)
        have hskip : KeyedList.find? name (e :: entries) = KeyedList.find? name entries :=
          if_neg hne
        rw [hskip]
        exact ih hrest hmem

/-- The children of a directory by a name are its entries. -/
theorem child_eq_some_iff {entries : List (Bytes × Node)} (h : IsTree (.directory entries))
    (hne : name ≠ []) : child name (.directory entries) = some m ↔ (name, m) ∈ entries := by
  cases h with
  | directory hnames _ _ => rw [child, if_neg hne, find?_iff_mem hnames]

/-- The entries of a node are its children. -/
theorem mem_entriesOf (h : IsTree n) :
    (name, m) ∈ entriesOf dironly n ↔
      name ≠ [] ∧ child name n = some m ∧ (dironly = true → m.isDirectory = true) := by
  cases n with
  | file => exact iff_of_false List.not_mem_nil fun h => by cases h.2.1
  | directory entries =>
    have hne (hmem : (name, m) ∈ entries) : name ≠ [] := by
      cases h with
      | directory _ hvalid _ => exact (hvalid _ hmem).ne_nil
    have hdir : (!dironly || m.isDirectory) = true ↔
        (dironly = true → m.isDirectory = true) := by
      cases dironly with
      | false => exact iff_of_true rfl fun h => by cases h
      | true => exact ⟨fun h _ => h, fun h => h rfl⟩
    rw [entriesOf, List.mem_filter, hdir]
    constructor
    · rintro ⟨hmem, hfits⟩
      exact ⟨hne hmem, (child_eq_some_iff h (hne hmem)).mpr hmem, hfits⟩
    · rintro ⟨hname, hchild, hfits⟩
      exact ⟨(child_eq_some_iff h hname).mp hchild, hfits⟩

theorem isTree_child (h : IsTree n) (hchild : child name n = some m) :
    (name ≠ [] → IsName name) ∧ IsTree m := by
  cases n with
  | file => cases hchild
  | directory entries =>
    by_cases hne : name = []
    · rw [child, if_pos hne] at hchild
      rw [← Option.some.inj hchild]
      exact ⟨fun hname => absurd hne hname, h⟩
    · have hmem := (child_eq_some_iff h hne).mp hchild
      cases h with
      | directory _ hvalid hchildren => exact ⟨fun _ => hvalid _ hmem, hchildren _ hmem⟩

theorem isTree_lookup (h : IsTree root) (hlookup : lookup root p = some n) : IsTree n := by
  induction p generalizing n with
  | nil => rwa [← Option.some.inj hlookup]
  | cons name p ih =>
    obtain ⟨m, hm, hchild⟩ := Option.bind_eq_some_iff.mp hlookup
    exact (isTree_child (ih hm) hchild).2

theorem isName_of_lookup (h : IsTree root) (hlookup : lookup root (name :: p) = some n)
    (hne : name ≠ []) : IsName name := by
  obtain ⟨m, hm, hchild⟩ := Option.bind_eq_some_iff.mp hlookup
  exact (isTree_child (isTree_lookup h hm) hchild).1 hne

/-- What has something in it is a directory. -/
theorem isDirectory_of_lookup_cons (hlookup : lookup root (name :: p) = some m) :
    ∃ n, lookup root p = some n ∧ n.isDirectory = true := by
  obtain ⟨n, hn, hchild⟩ := Option.bind_eq_some_iff.mp hlookup
  cases n with
  | file => cases hchild
  | directory entries => exact ⟨_, hn, rfl⟩

/-- A slash after a path leads to the same node, if it is a directory. -/
theorem is_directory_iff : is_directory root d = true ↔ ∃ m, lookup root ([] :: d) = some m := by
  rw [is_directory, Option.any_eq_true]
  constructor
  · rintro ⟨m, hm, hdir⟩
    cases m with
    | file => cases hdir
    | directory entries =>
      have hself : child [] (.directory entries) = some (.directory entries)  := rfl
      exact ⟨_, Option.bind_eq_some_iff.mpr ⟨_, hm, hself⟩⟩
  · rintro ⟨m, hm⟩
    exact isDirectory_of_lookup_cons hm

theorem mem_iter_directory (h : IsTree root) : p ∈ iter_directory root d dironly ↔
    ∃ name m, p = name :: d ∧ name ≠ [] ∧ lookup root p = some m ∧
      (dironly = true → m.isDirectory = true) := by
  unfold iter_directory
  rw [List.mem_map]
  constructor
  · rintro ⟨⟨name, m⟩, he, rfl⟩
    obtain ⟨n, hn, he⟩ := List.mem_flatMap.mp he
    have hlookup := Option.mem_toList.mp hn
    obtain ⟨hne, hchild, hdir⟩ := (mem_entriesOf (isTree_lookup h hlookup)).mp he
    refine ⟨name, m, rfl, hne, ?_, hdir⟩
    show (lookup root d).bind (child name) = some m
    rw [hlookup, Option.bind_some, hchild]
  · rintro ⟨name, m, rfl, hne, hlookup, hdir⟩
    obtain ⟨n, hn, hchild⟩ := Option.bind_eq_some_iff.mp hlookup
    refine ⟨(name, m), List.mem_flatMap.mpr ⟨n, Option.mem_toList.mpr hn, ?_⟩, rfl⟩
    exact (mem_entriesOf (isTree_lookup h hn)).mpr ⟨hne, hchild, hdir⟩

theorem visible_iff_first : Visible d p ↔
    ∃ name, Shown (name :: d) ∧ (p = name :: d ∨ Visible (name :: d) p) := by
  constructor
  · intro h
    induction h with
    | @child name hshown => exact ⟨name, hshown, Or.inl rfl⟩
    | @further p last hp hshown ih =>
      obtain ⟨name, hname, rfl | hvisible⟩ := ih
      · exact ⟨name, hname, Or.inr (.child hshown)⟩
      · exact ⟨name, hname, Or.inr (.further hvisible hshown)⟩
  · rintro ⟨name, hname, rfl | hvisible⟩
    · exact .child hname
    · induction hvisible with
      | child hshown => exact .further (.child hname) hshown
      | further _ hshown ih => exact .further ih hshown

/-- Where a path below another one exists, the other one is a directory. -/
theorem isDirectory_of_visible (h : Visible d p) (hlookup : lookup root p = some m) :
    ∃ n, lookup root d = some n ∧ n.isDirectory = true := by
  induction h generalizing m with
  | child _ => exact isDirectory_of_lookup_cons hlookup
  | further _ _ ih =>
    obtain ⟨n, hn, -⟩ := isDirectory_of_lookup_cons hlookup
    exact ih hn

theorem mem_rlistEntries {entries : List (Bytes × Node)} :
    p ∈ rlistEntries absolute d dironly entries ↔
      ∃ e ∈ entries, p ∈ rlistEntry absolute d dironly e := by
  induction entries with
  | nil => exact iff_of_false List.not_mem_nil fun ⟨e, he, _⟩ => List.not_mem_nil he
  | cons e entries ih => rw [rlistEntries, List.mem_append, ih, List.exists_mem_cons_iff]

theorem mem_rlistEntry (hname : IsName name) : p ∈ rlistEntry absolute d dironly (name, n) ↔
    (dironly = true → n.isDirectory = true) ∧ Shown (name :: d) ∧
      (p = name :: d ∨ p ∈ rlistdir absolute (name :: d) dironly n) := by
  rw [rlistEntry, Shown, and_iff_right hname.ne_nil, ← is_hidden_iff hname absolute d]
  split_ifs with hdir hhidden
  · simp only [Bool.and_eq_true, Bool.not_eq_true'] at hdir
    have hnot : ¬(dironly = true → n.isDirectory = true) := by
      rw [hdir.1, hdir.2]
      exact fun h => Bool.false_ne_true (h rfl)
    exact iff_of_false List.not_mem_nil fun h => hnot h.1
  · exact iff_of_false List.not_mem_nil fun h => h.2.1 hhidden
  · have hdir' : dironly = true → n.isDirectory = true := by
      intro htrue
      rw [htrue, Bool.true_and, Bool.not_eq_true', Bool.not_eq_false] at hdir
      exact hdir
    rw [List.mem_cons]
    exact ⟨fun h => ⟨hdir', hhidden, h⟩, fun h => h.2.2⟩

/-- `rlistdir` lists what is visible below a directory. The induction is on the tree. -/
theorem mem_rlistdir (h : IsTree n) (hlookup : lookup root d = some n) :
    p ∈ rlistdir absolute d dironly n ↔
      Visible d p ∧ ∃ m, lookup root p = some m ∧ (dironly = true → m.isDirectory = true) := by
  induction h generalizing d with
  | file =>
    -- nothing exists below a file
    refine iff_of_false List.not_mem_nil ?_
    rintro ⟨hvisible, m, hm, -⟩
    obtain ⟨n, hn, hdir⟩ := isDirectory_of_visible hvisible hm
    rw [hlookup] at hn
    rw [← Option.some.inj hn] at hdir
    cases hdir
  | @directory entries hnames hvalid hchildren ih =>
    have htree : IsTree (.directory entries) := .directory hnames hvalid hchildren
    have hchild {name : Bytes} {m : Node} (he : (name, m) ∈ entries) :
        lookup root (name :: d) = some m := by
      show (lookup root d).bind (child name) = some m
      rw [hlookup, Option.bind_some, child_eq_some_iff htree (hvalid _ he).ne_nil]
      exact he
    rw [rlistdir, mem_rlistEntries]
    constructor
    · rintro ⟨⟨name, m⟩, he, hp⟩
      obtain ⟨hdir, hshown, rfl | hp⟩ := (mem_rlistEntry (hvalid _ he)).mp hp
      · exact ⟨.child hshown, m, hchild he, hdir⟩
      · obtain ⟨hvisible, hexists⟩ := (ih _ he (hchild he)).mp hp
        exact ⟨visible_iff_first.mpr ⟨name, hshown, Or.inr hvisible⟩, hexists⟩
    · rintro ⟨hvisible, hexists⟩
      obtain ⟨name, hshown, hp⟩ := visible_iff_first.mp hvisible
      -- the first name on the way is an entry, since there is something at the end of the way
      have hfirst : ∃ m, lookup root (name :: d) = some m ∧
          (dironly = true → m.isDirectory = true) := by
        rcases hp with rfl | hp
        · exact hexists
        · obtain ⟨m, hm, -⟩ := hexists
          obtain ⟨n, hn, hdir⟩ := isDirectory_of_visible hp hm
          exact ⟨n, hn, fun _ => hdir⟩
      obtain ⟨m, hm, hdir⟩ := hfirst
      obtain ⟨n, hn, hchild'⟩ := Option.bind_eq_some_iff.mp hm
      rw [hlookup] at hn
      rw [← Option.some.inj hn, child_eq_some_iff htree hshown.1] at hchild'
      refine ⟨(name, m), hchild', (mem_rlistEntry (hvalid _ hchild')).mpr ⟨hdir, hshown, ?_⟩⟩
      rcases hp with rfl | hp
      · exact Or.inl rfl
      · exact Or.inr ((ih _ hchild' hm).mpr ⟨hp, hexists⟩)

/-- A pattern that becomes a regular expression. -/
def Compiles (pattern : Bytes) : Prop :=
  ∃ a, (translate pattern).bind EcmaScript.compile = some a

theorem Compiles.exists_fnmatch {pattern : Bytes} (h : Compiles pattern) :
    ∃ accepts : Bytes → Bool, ∀ name, fnmatch name pattern = some (accepts name) := by
  obtain ⟨a, ha⟩ := h
  obtain ⟨s, hs, hcompile⟩ := Option.bind_eq_some_iff.mp ha
  refine ⟨a.isMatch, fun name => ?_⟩
  rw [fnmatch, hs, Option.bind_some, hcompile, Option.map_some]

variable {recursive : Bool} {basename : Bytes}

/-- What is looked for only among directories is one. -/
def Fits (dironly : Bool) (basename : Bytes) (m : Node) : Prop :=
  dironly = true → has_magic basename = true → m.isDirectory = true

variable (d absolute dironly) in
theorem mem_glob1 (h : IsTree root) (hcompiles : Compiles basename) :
    ∃ names, glob1 root absolute d basename dironly = some names ∧ ∀ p, p ∈ names.map (· :: d) ↔
      (∃ name, p = name :: d ∧ fnmatch name basename = some true ∧ Shown p) ∧
        ∃ m, lookup root p = some m ∧ (dironly = true → m.isDirectory = true) := by
  obtain ⟨accepts, haccepts⟩ := hcompiles.exists_fnmatch
  refine ⟨_, filter_of_fnmatch haccepts _, fun p => ?_⟩
  rw [List.mem_map]
  -- the two filters commute: hidden names go first, then those that do not match
  constructor
  · rintro ⟨name, hname, rfl⟩
    obtain ⟨hmem, haccept⟩ := List.mem_filter.mp hname
    obtain ⟨q, hq, rfl⟩ := List.mem_map.mp hmem
    obtain ⟨hq, hhidden⟩ := List.mem_filter.mp hq
    obtain ⟨name, m, rfl, hne, hlookup, hdir⟩ := (mem_iter_directory h).mp hq
    rw [Bool.not_eq_true', Bool.eq_false_iff, ne_eq,
      is_hidden_iff (isName_of_lookup h hlookup hne)] at hhidden
    exact ⟨⟨name, rfl, by rw [haccepts]; exact congrArg some haccept, hne, hhidden⟩, m, hlookup,
      hdir⟩
  · rintro ⟨⟨name, rfl, hname, hne, hhidden⟩, m, hlookup, hdir⟩
    rw [← is_hidden_iff (isName_of_lookup h hlookup hne) absolute, ← ne_eq, ← Bool.eq_false_iff,
      ← Bool.not_eq_true'] at hhidden
    rw [haccepts] at hname
    refine ⟨name, List.mem_filter.mpr ⟨List.mem_map.mpr ⟨name :: d, ?_, rfl⟩,
      Option.some.inj hname⟩, rfl⟩
    exact List.mem_filter.mpr
      ⟨(mem_iter_directory h).mpr ⟨name, m, rfl, hne, hlookup, hdir⟩, hhidden⟩

/-- A name is found where it exists: an empty one, where its directory does. -/
theorem glob0_eq (root : Node) (d : Path) (basename : Bytes) :
    glob0 root d basename = if (lookup root (basename :: d)).isSome then [basename] else [] := by
  unfold glob0
  split_ifs with hempty hdir hexists hexists
  · rfl
  · rw [hempty] at hexists
    exact absurd (Option.isSome_iff_exists.mpr (is_directory_iff.mp hdir)) hexists
  · rw [hempty] at hexists
    exact absurd (is_directory_iff.mpr (Option.isSome_iff_exists.mp hexists)) hdir
  all_goals rfl

variable (d absolute dironly recursive) in
/-- One name of the pattern in one directory. -/
theorem mem_glob_in_dir (h : IsTree root) (hcompiles : has_magic basename = true →
      Compiles basename) :
    ∃ found, glob_in_dir root absolute recursive dironly basename d = some found ∧ ∀ p, p ∈ found ↔
      Extends recursive basename d p ∧ ∃ m, lookup root p = some m ∧ Fits dironly basename m := by
  unfold glob_in_dir Extends Fits
  by_cases hmagic : has_magic basename = true
  · simp only [hmagic, ↓reduceIte, forall_const]
    by_cases hstars : (recursive && is_recursive basename) = true
    · -- two stars of `rglob`
      simp only [hstars, ↓reduceIte]
      refine ⟨_, rfl, fun p => ?_⟩
      unfold glob2
      cases hd : lookup root d with
      | none =>
        refine iff_of_false (by simp) ?_
        rintro ⟨hvisible, m, hm, -⟩
        obtain ⟨n, hn, -⟩ := isDirectory_of_visible hvisible hm
        rw [hd] at hn
        cases hn
      | some n =>
        rw [Option.toList_some, List.flatMap_singleton]
        exact mem_rlistdir (isTree_lookup h hd) hd
    · -- any other pattern
      simp only [hstars, Bool.false_eq_true, ↓reduceIte]
      obtain ⟨names, hnames, hmem⟩ := mem_glob1 d absolute dironly h (hcompiles hmagic)
      exact ⟨_, by rw [hnames, Option.map_some], hmem⟩
  · -- a plain name, for which `dironly` makes no difference
    simp only [hmagic, Bool.false_eq_true, ↓reduceIte, false_implies, implies_true, and_true]
    refine ⟨_, rfl, fun p => ?_⟩
    rw [glob0_eq]
    split_ifs with hexists
    · rw [List.map_singleton, List.mem_singleton]
      constructor
      · rintro rfl
        exact ⟨rfl, Option.isSome_iff_exists.mp hexists⟩
      · exact fun hp => hp.1
    · refine iff_of_false List.not_mem_nil ?_
      rintro ⟨rfl, m, hm⟩
      exact hexists (Option.isSome_of_eq_some hm)

variable (absolute dironly recursive) in
theorem mem_globDirs (h : IsTree root) (hcompiles : has_magic basename = true →
      Compiles basename) (dirs : List Path) :
    ∃ found, globDirs root absolute recursive dironly basename dirs = some found ∧ ∀ p, p ∈ found ↔
      (∃ d ∈ dirs, Extends recursive basename d p) ∧
        ∃ m, lookup root p = some m ∧ Fits dironly basename m := by
  induction dirs with
  | nil =>
    refine ⟨[], rfl, fun p => iff_of_false List.not_mem_nil ?_⟩
    rintro ⟨⟨d, hd, -⟩, -⟩
    exact List.not_mem_nil hd
  | cons d dirs ih =>
    obtain ⟨found, hfound, hmem⟩ := ih
    obtain ⟨first, hfirst, hmem'⟩ := mem_glob_in_dir d absolute dironly recursive h hcompiles
    refine ⟨first ++ found, ?_, fun p => ?_⟩
    · rw [globDirs, hfirst, Option.bind_some, hfound, Option.map_some]
    · rw [List.mem_append, hmem, hmem', List.exists_mem_cons_iff, or_and_right]

theorem has_magic_append (s t : Bytes) :
    has_magic (s ++ t) = true ↔ has_magic s = true ∨ has_magic t = true := by
  simp only [has_magic_iff, List.mem_append, or_and_right, exists_or]

theorem has_magic_pathText (absolute : Bool) (name : Bytes) (p : Path) :
    has_magic (pathText absolute (name :: p)) = true ↔
      has_magic name = true ∨ has_magic (pathText absolute p) = true := by
  have hslash : has_magic [0x2F] = false := by
    rw [Bool.eq_false_iff, ne_eq, has_magic_iff]
    decide
  -- the slash after a directory is not magic
  have hdir : has_magic (directoryText absolute p) = has_magic (pathText absolute p) := by
    unfold directoryText
    split_ifs with h habsolute
    · rw [h, habsolute]
      rfl
    · rw [h, Bool.eq_false_iff.mpr habsolute]
      rfl
    · rw [Bool.eq_iff_iff, has_magic_append, hslash]
      exact or_iff_left Bool.false_ne_true
  rw [pathText_cons, has_magic_append, hdir, or_comm]

/-- A pattern without magic selects only itself. -/
theorem selected_of_no_magic {pattern : Path}
    (h : ¬ has_magic (pathText absolute pattern) = true) :
    Selected recursive pattern p ↔ p = pattern := by
  induction pattern generalizing p with
  | nil => exact Iff.rfl
  | cons basename pattern ih =>
    rw [has_magic_pathText, not_or] at h
    have hextends (d : Path) : Extends recursive basename d p ↔ p = basename :: d := by
      rw [Extends, if_neg h.1]
    simp only [Selected, ih h.2, hextends, exists_eq_left]

/-- What exists below `d` makes `d` a directory. -/
theorem isDirectory_of_extends (hextends : Extends recursive basename d p)
    (hlookup : lookup root p = some m) : ∃ n, lookup root d = some n ∧ n.isDirectory = true := by
  unfold Extends at hextends
  split_ifs at hextends
  · exact isDirectory_of_visible hextends hlookup
  · obtain ⟨name, rfl, -⟩ := hextends
    exact isDirectory_of_lookup_cons hlookup
  · rw [hextends] at hlookup
    exact isDirectory_of_lookup_cons hlookup

variable (dironly recursive) in
/-- A path none of whose names is magic is found itself, if it exists. -/
theorem mem_glob_of_no_magic {pattern : Path}
    (hmagic : ¬ has_magic (pathText absolute (basename :: pattern)) = true) :
    ∃ found, glob root absolute recursive dironly (basename :: pattern) = some found ∧
      ∀ p, p ∈ found ↔ Selected recursive (basename :: pattern) p ∧
        ∃ m, lookup root p = some m ∧ Fits dironly basename m := by
  have hfound : glob root absolute recursive dironly (basename :: pattern) =
      some ((glob0 root pattern basename).map (· :: pattern)) := by
    rw [glob, if_neg hmagic, glob0]
    split_ifs <;> rfl
  refine ⟨_, hfound, fun p => ?_⟩
  rw [selected_of_no_magic hmagic, glob0_eq]
  rw [has_magic_pathText, not_or] at hmagic
  split_ifs with hexists
  · rw [List.map_singleton, List.mem_singleton]
    constructor
    · rintro rfl
      obtain ⟨m, hm⟩ := Option.isSome_iff_exists.mp hexists
      exact ⟨rfl, m, hm, fun _ hmagic' => absurd hmagic' hmagic.1⟩
    · exact fun hp => hp.1
  · refine iff_of_false List.not_mem_nil ?_
    rintro ⟨rfl, m, hm, -⟩
    exact hexists (Option.isSome_of_eq_some hm)

variable (recursive) in
theorem mem_glob (h : IsTree root) (hdirectory : root.isDirectory = true) {pattern : Path}
    (hne : pathText absolute pattern ≠ [])
    (hcompiles : ∀ basename ∈ pattern, has_magic basename = true → Compiles basename) :
    ∀ dironly, ∃ found, glob root absolute recursive dironly pattern = some found ∧
      ∀ p, p ∈ found ↔ Selected recursive pattern p ∧
        ∃ m, lookup root p = some m ∧ Fits dironly (pattern.headD []) m := by
  induction pattern with
  | nil =>
    intro dironly
    have habsolute : (absolute && is_directory root []) = true := by
      cases absolute with
      | false => exact absurd rfl hne
      | true => exact hdirectory
    refine ⟨[[]], by rw [glob, if_pos habsolute], fun p => ?_⟩
    rw [List.mem_singleton, Selected]
    constructor
    · rintro rfl
      exact ⟨rfl, root, rfl, fun _ _ => hdirectory⟩
    · exact fun hp => hp.1
  | cons basename pattern ih =>
    intro dironly
    rw [List.forall_mem_cons] at hcompiles
    by_cases hmagic : has_magic (pathText absolute (basename :: pattern)) = true
    · -- the directories: what the names before select, of which only directories matter
      have hdirs : ∃ dirs, (if has_magic (pathText absolute pattern) then
          glob root absolute recursive true pattern else some [pattern]) = some dirs ∧
            ∀ d n, lookup root d = some n → n.isDirectory = true →
              (d ∈ dirs ↔ Selected recursive pattern d) := by
        by_cases hdirmagic : has_magic (pathText absolute pattern) = true
        · have hdirname : pathText absolute pattern ≠ [] := by
            intro hempty
            rw [hempty, has_magic_iff] at hdirmagic
            obtain ⟨c, hc, -⟩ := hdirmagic
            exact List.not_mem_nil hc
          obtain ⟨dirs, hdirs, hmem⟩ := ih hdirname hcompiles.2 true
          refine ⟨dirs, by rw [if_pos hdirmagic, hdirs], fun d n hn hdir => ?_⟩
          rw [hmem]
          exact and_iff_left ⟨n, hn, fun _ _ => hdir⟩
        · refine ⟨[pattern], if_neg hdirmagic, fun d n _ _ => ?_⟩
          rw [List.mem_singleton, selected_of_no_magic hdirmagic]
      obtain ⟨dirs, hdirs, hmem⟩ := hdirs
      obtain ⟨found, hfound, hmem'⟩ := mem_globDirs absolute dironly recursive h hcompiles.1 dirs
      refine ⟨found, by rw [glob, if_pos hmagic, hdirs, Option.bind_some, hfound], fun p => ?_⟩
      rw [hmem', Selected, List.headD_cons]
      apply and_congr_left
      rintro ⟨m, hm, -⟩
      constructor
      · rintro ⟨d, hd, hextends⟩
        obtain ⟨n, hn, hdir⟩ := isDirectory_of_extends hextends hm
        exact ⟨d, (hmem d n hn hdir).mp hd, hextends⟩
      · rintro ⟨d, hd, hextends⟩
        obtain ⟨n, hn, hdir⟩ := isDirectory_of_extends hextends hm
        exact ⟨d, (hmem d n hn hdir).mpr hd, hextends⟩
    · exact mem_glob_of_no_magic dironly recursive hmagic

end Tree

/-- A directory with two files whose names start with a dot. -/
def nightTree : Node :=
  .directory [(bytes "night", .directory [(bytes ".m31.tmp", .file), (bytes ".lock", .file)])]

theorem isTree_nightTree : IsTree nightTree := by
  have hname (s : Bytes) (hne : s ≠ []) (hslash : 0x2F ∉ s) : IsName s := ⟨hne, hslash⟩
  refine .directory (by decide) ?_ ?_
  · intro e he
    rw [List.mem_singleton.mp he]
    exact hname _ (by decide) (by decide)
  · intro e he
    rw [List.mem_singleton.mp he]
    refine .directory (by decide) ?_ ?_
    · intro e he
      rcases List.mem_pair.mp he with rfl | rfl
      · exact hname _ (by decide) (by decide)
      · exact hname _ (by decide) (by decide)
    · intro e he
      rcases List.mem_pair.mp he with rfl | rfl
      · exact .file
      · exact .file

/-- The pattern `/night/*`. -/
def nightPattern : Pattern where
  absolute := true
  names := [bytes "*", bytes "night"]
  text_ne := by decide
  no_slash := by decide
  no_dots := by decide
  no_tilde := by decide
  folders := by decide

/-- Only the name without another dot is hidden. -/
example : glob nightTree true true false [bytes "**"] =
    some [[bytes "night"], [bytes ".m31.tmp", bytes "night"]] := by decide +kernel

/-- The pattern `*/`, which only directories match. -/
example : glob nightTree false false false [[], bytes "*"] = some [[[], bytes "night"]] := by
  decide +kernel

end Glob

end OpenAPT
