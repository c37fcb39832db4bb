import Mathlib.Data.List.Infix
import Mathlib.Data.Rat.Defs
import OpenAPT.Bytes
import OpenAPT.Lib.KeyedList
import OpenAPT.Lib.ShellWords

/-! `run_astap`, with the command that it runs and the FITS header that it reads. -/
namespace OpenAPT.ASTAP

/-- The numbers of type `double`: literals, comparisons, arithmetic, and their texts by `to_string`
and by `operator<<`, in which no byte means anything to a shell. -/
structure Floats (D : Type) where
  literal : ℚ → D
  lt : D → D → Bool
  eq : D → D → Bool
  add : D → D → D
  mul : D → D → D
  div : D → D → D
  to_string : D → Bytes
  shown : D → Bytes
  bare_to_string (x : D) : ShellWords.Bare (to_string x)
  bare_shown (x : D) : ShellWords.Bare (shown x)

/-- A status of the FITS library other than success. -/
abbrev FitsError := { status : Int32 // status ≠ 0 }

/-- An open FITS file: what is read at each key with the status zero, and the status that closing
the file leaves after another one. -/
structure FitsFile (D : Type) where
  fits_read_key : Bytes → Except FitsError D
  fits_close_file : Int32 → Int32

/-- What a call finds: which files exist, are regular, executable, readable and writable, what a
command prints (`none` if it takes longer than the timeout), and the FITS files. -/
structure AstapEnv (D : Type) where
  floats : Floats D
  existsFile : Bytes → Bool
  is_regular_file : Bytes → Bool
  access_X_OK : Bytes → Bool
  access_F_OK : Bytes → Bool
  access_R_OK_W_OK : Bytes → Bool
  execute_command : Bytes → Option Bytes
  fits_open_file : Bytes → Except FitsError (FitsFile D)

/-- The arguments of `run_astap`, the timeout apart. -/
structure AstapArgs (D : Type) where
  ra : D
  dec : D
  fov : D
  update : Bool
  image : Bytes

def IsSubstring (str sub : Bytes) : Bool := sub <:+: str

namespace AstapArgs

variable {D : Type}

/-- The first part of the command, before the image. -/
def coordinates (f : Floats D) (a : AstapArgs D) : Bytes :=
  (if f.eq a.ra (f.literal 0) then [] else bytes " -ra " ++ f.to_string a.ra) ++
  (if f.eq a.dec (f.literal 0) then []
    else bytes " -spd " ++ f.to_string (f.add a.dec (f.literal 90))) ++
  if f.eq a.fov (f.literal 0) then [] else bytes " -fov " ++ f.to_string a.fov

def updateOption (a : AstapArgs D) : Bytes := if a.update then bytes " -update " else []

/-- The command line that `execute_astap_command` builds. -/
def commandLine (f : Floats D) (command : Bytes) (a : AstapArgs D) : Bytes :=
  command ++ a.coordinates f ++ (if a.image = [] then [] else bytes " -f " ++ a.image) ++
    a.updateOption

/-- The angles are in their ranges. -/
def inRange (f : Floats D) (a : AstapArgs D) : Bool :=
  !(f.lt a.ra (f.literal 0) || f.lt (f.literal 360) a.ra) &&
  !(f.lt a.dec (f.literal (-90)) || f.lt (f.literal 90) a.dec) &&
  !((f.lt a.fov (f.literal 0) || f.eq a.fov (f.literal 0)) || f.lt (f.literal 180) a.fov)

end AstapArgs

namespace AstapEnv

variable {D : Type}

/-- On Linux the extension is not used. -/
def check_executable_file (e : AstapEnv D) (file_name : Bytes) : Bool :=
  e.existsFile file_name && (e.is_regular_file file_name && e.access_X_OK file_name)

/-- The checks before a command line is built. -/
def accepts (e : AstapEnv D) (a : AstapArgs D) : Bool :=
  a.inRange e.floats &&
    (a.image = [] || e.access_F_OK (cStr a.image) && e.access_R_OK_W_OK (cStr a.image))

/-- The command line, if the arguments are accepted. -/
def built (e : AstapEnv D) (command : Bytes) (a : AstapArgs D) : Option Bytes :=
  if e.accepts a then some (a.commandLine e.floats command) else none

/-- Nothing is returned for arguments that are not accepted and for a timeout. -/
def execute_astap_command (e : AstapEnv D) (command : Bytes) (a : AstapArgs D) : Bytes :=
  match e.built command a with
  | none => []
  | some cmd => (e.execute_command (cStr cmd)).getD []

/-- A read of the header: the value, if there is one, and the status after it. -/
def readKey (file : FitsFile D) (key : Bytes) : Option D × Int32 :=
  match file.fits_read_key key with
  | .ok value => (some value, 0)
  | .error status => (none, status)

/-- The entries of a success; there are none where a variable that is read has no value. -/
def solvedEntries (f : Floats D) (solved_ra solved_dec x_pixel_arcsec y_pixel_arcsec rotation
    x_pixel_size y_pixel_size : Option D) : Option (List (Bytes × Bytes)) := do
  let ra ← solved_ra
  let dec ← solved_dec
  let rotation ← rotation
  let x_size ← x_pixel_size
  let entries := [(bytes "message", bytes "Solve success"), (bytes "ra", f.to_string ra),
    (bytes "dec", f.to_string dec), (bytes "rotation", f.to_string rotation)]
  if f.lt (f.literal 0) x_size then do
    let y_size ← y_pixel_size
    if f.lt (f.literal 0) y_size then do
      let x_arcsec ← x_pixel_arcsec
      let y_arcsec ← y_pixel_arcsec
      let x_focal_length := f.mul (f.div x_size x_arcsec) (f.literal 206.625)
      let y_focal_length := f.mul (f.div y_size y_arcsec) (f.literal 206.625)
      let avg_focal_length := f.div (f.add x_focal_length y_focal_length) (f.literal 2)
      pure (entries ++ [(bytes "focal_length", f.to_string avg_focal_length)])
    else pure entries
  else pure entries

/-- The status is reset before each read, but not before the file is closed. -/
def read_astap_result (e : AstapEnv D) (image : Bytes) : Option (List (Bytes × Bytes)) :=
  match e.fits_open_file (cStr image) with
  | .error _ =>
    some [(bytes "message", bytes "Error: cannot open FITS file '" ++ image ++ bytes "'.")]
  | .ok file =>
    let data_get_flag := false
    let solved_ra := (readKey file (bytes "CRVAL1")).1
    let solved_dec := (readKey file (bytes "CRVAL2")).1
    let x_pixel_arcsec := (readKey file (bytes "CDELT1")).1
    let y_pixel_arcsec := (readKey file (bytes "CDELT2")).1
    let rotation := (readKey file (bytes "CROTA1")).1
    let x_pixel_size := (readKey file (bytes "XPIXSZ")).1
    let (y_pixel_size, status) := readKey file (bytes "YPIXSZ")
    if file.fits_close_file status ≠ 0 then
      some [(bytes "message", bytes "Error: failed to close FITS file '" ++ image ++ bytes "'.")]
    else if data_get_flag then
      solvedEntries e.floats solved_ra solved_dec x_pixel_arcsec y_pixel_arcsec rotation
        x_pixel_size y_pixel_size
    else some [(bytes "message", bytes "Solve failed")]

/-- Astap is at one of its two places. -/
def installed (e : AstapEnv D) : Bool :=
  e.check_executable_file (bytes "/usr/bin/astap") ||
    e.check_executable_file (bytes "/usr/local/bin/astap")

def run_astap (e : AstapEnv D) (a : AstapArgs D) : Option (List (Bytes × Bytes)) :=
  if !e.installed then some [(bytes "message", bytes "No solver found!")]
  else
    let result := e.execute_astap_command (bytes "astap") a
    if IsSubstring result (bytes "Solution found:") then e.read_astap_result a.image
    else some [(bytes "message", bytes "Failed to solve the image")]

/-- The solver is there, and the FITS file of the image opens and closes. -/
structure Works (e : AstapEnv D) (image : Bytes) (file : FitsFile D) : Prop where
  installed : e.installed = true
  opens : e.fits_open_file (cStr image) = .ok file
  closes : file.fits_close_file 0 = 0

/-- The solver prints that it found a solution. -/
def Found (e : AstapEnv D) (a : AstapArgs D) : Prop :=
  bytes "Solution found:" <:+: e.execute_astap_command (bytes "astap") a

/-- The right ascension and the declination are in the header. -/
def Readable (file : FitsFile D) (ra dec : D) : Prop :=
  file.fits_read_key (bytes "CRVAL1") = .ok ra ∧ file.fits_read_key (bytes "CRVAL2") = .ok dec

/-- The result is a success with these coordinates. -/
def Succeeds (e : AstapEnv D) (a : AstapArgs D) (ra dec : D) : Prop :=
  ∃ result, e.run_astap a = some result ∧
    KeyedList.find? (bytes "message") result = some (bytes "Solve success") ∧
    KeyedList.find? (bytes "ra") result = some (e.floats.to_string ra) ∧
    KeyedList.find? (bytes "dec") result = some (e.floats.to_string dec)

/-- Where everything works, `run_astap` reports exactly the solutions that were found and read. -/
def Reports (e : AstapEnv D) (a : AstapArgs D) : Prop :=
  ∀ file, e.Works a.image file →
    ((∃ ra dec, Readable file ra dec ∧ e.Succeeds a ra dec) ↔
      e.Found a ∧ ∃ ra dec, Readable file ra dec)

/-- No solution is found, or it is not in the header. -/
def NothingToReport (e : AstapEnv D) (a : AstapArgs D) : Prop :=
  ∀ file, e.Works a.image file → ¬(e.Found a ∧ ∃ ra dec, Readable file ra dec)

/-- What the messages can say. -/
def messages (image : Bytes) : List Bytes :=
  [bytes "Error: cannot open FITS file '" ++ image ++ bytes "'.",
    bytes "Error: failed to close FITS file '" ++ image ++ bytes "'.", bytes "Solve failed"]

theorem read_astap_result_message (e : AstapEnv D) (image : Bytes) :
    ∃ text ∈ messages image, e.read_astap_result image = some [(bytes "message", text)] := by
  unfold read_astap_result
  cases e.fits_open_file (cStr image) with
  | error status => exact ⟨_, List.mem_cons_self, rfl⟩
  | ok file =>
    simp only [Bool.false_eq_true, ↓reduceIte]
    split_ifs with hclose
    · exact ⟨_, List.mem_cons_of_mem _ List.mem_cons_self, rfl⟩
    · exact ⟨_, List.mem_cons_of_mem _ (List.mem_cons_of_mem _ List.mem_cons_self), rfl⟩

/-- The result is always one message. -/
theorem run_astap_message (e : AstapEnv D) (a : AstapArgs D) :
    ∃ text ∈ bytes "No solver found!" :: bytes "Failed to solve the image" :: messages a.image,
      e.run_astap a = some [(bytes "message", text)] := by
  unfold run_astap
  dsimp only
  split_ifs
  · exact ⟨_, List.mem_cons_self, rfl⟩
  · obtain ⟨text, htext, hresult⟩ := e.read_astap_result_message a.image
    exact ⟨text, List.mem_cons_of_mem _ (List.mem_cons_of_mem _ htext), hresult⟩
  · exact ⟨_, List.mem_cons_of_mem _ List.mem_cons_self, rfl⟩

/-- `data_get_flag` is never set. -/
theorem not_succeeds (e : AstapEnv D) (a : AstapArgs D) (ra dec : D) : ¬e.Succeeds a ra dec := by
  rintro ⟨result, hresult, -, hra, -⟩
  obtain ⟨text, -, hmessage⟩ := e.run_astap_message a
  obtain rfl := Option.some.inj (hmessage.symm.trans hresult)
  cases hra

/-- A solution is reported as it is exactly if there is none. -/
theorem reports_iff (e : AstapEnv D) (a : AstapArgs D) : e.Reports a ↔ e.NothingToReport a := by
  refine forall₂_congr fun file _ => ?_
  -- the left side never holds
  have hnot : ¬∃ ra dec, Readable file ra dec ∧ e.Succeeds a ra dec := by
    rintro ⟨ra, dec, -, hsucceeds⟩
    exact e.not_succeeds a ra dec hsucceeds
  rw [iff_false_left hnot]

/-- Everything works, a solution is found, and every key is in the header. -/
def solved : AstapEnv ℚ where
  floats := ⟨id, (· < ·), (· = ·), (· + ·), (· * ·), (· / ·), fun _ => bytes "1.000000",
    fun _ => bytes "1", fun _ => by decide, fun _ => by decide⟩
  existsFile _ := true
  is_regular_file _ := true
  access_X_OK _ := true
  access_F_OK _ := true
  access_R_OK_W_OK _ := true
  execute_command _ := some (bytes "Solution found: 01:00:00 +01d00m00s")
  fits_open_file _ := .ok ⟨fun _ => .ok 1, id⟩

/-- The solution of `image.fits` is not reported. -/
theorem not_reports_solved : ¬solved.Reports ⟨0, 0, 1, true, bytes "image.fits"⟩ := by
  intro h
  have hfound : solved.Found ⟨0, 0, 1, true, bytes "image.fits"⟩ := by
    unfold Found
    decide +kernel
  obtain ⟨ra, dec, -, result, hresult, hmessage, -⟩ :=
    (h _ ⟨rfl, rfl, rfl⟩).mpr ⟨hfound, 1, 1, rfl, rfl⟩
  have hfailed : solved.run_astap ⟨0, 0, 1, true, bytes "image.fits"⟩ =
      some [(bytes "message", bytes "Solve failed")] := by decide +kernel
  obtain rfl := Option.some.inj (hfailed.symm.trans hresult)
  revert hmessage
  decide

end AstapEnv

end OpenAPT.ASTAP
