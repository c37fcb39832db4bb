import OpenAPT.Bytes
import OpenAPT.Lib.Readers

/-! The path conversions of `io.cpp`. Either of them undoes what the other one does to a path that
has been converted before. -/
namespace OpenAPT

/-- `islower`, `tolower` and `toupper` in the C locale. -/
def islower (c : UInt8) : Bool := 97 ≤ c && c ≤ 122

def tolower (c : UInt8) : UInt8 := if 65 ≤ c ∧ c ≤ 90 then c + 32 else c

def toupper (c : UInt8) : UInt8 := if islower c then c - 32 else c

/-- Both conversions: every separator is replaced, and then the first byte if the second one is a
colon. -/
def convertPath (separator drive : UInt8 → UInt8) (path : Bytes) : Bytes :=
  match path.map separator with
  | first :: second :: rest =>
    if second = 58 then drive first :: second :: rest else first :: second :: rest
  | short => short

def convert_windows_to_linux_path (windows_path : Bytes) : Bytes :=
  convertPath (fun c => if c = 92 then 47 else c) tolower windows_path

def convert_linux_to_windows_path (linux_path : Bytes) : Bytes :=
  convertPath (fun c => if c = 47 then 92 else c) (fun c => if islower c then toupper c else c)
    linux_path

/-- What the bytes of two conversions do to each other: a replaced separator is replaced back, a
colon stays, and the first byte of a drive is what it was. -/
structure Undoes (separator drive separator' drive' : UInt8 → UInt8) : Prop where
  separator_eq : ∀ c, separator (separator' (separator c)) = separator c
  colon_iff : ∀ c, separator c = 58 ↔ c = 58
  colon_iff' : ∀ c, separator' c = 58 ↔ c = 58
  drive_eq : ∀ c, drive (separator (drive' (separator' (drive (separator c))))) =
    drive (separator c)

section

variable {separator drive separator' drive' : UInt8 → UInt8}

theorem convertPath_of_drive {second : UInt8} (hcolon : separator second = 58) (first : UInt8)
    (rest : Bytes) : convertPath separator drive (first :: second :: rest) =
      drive (separator first) :: separator second :: rest.map separator := by
  rw [convertPath, List.map_cons, List.map_cons]
  exact if_pos hcolon

theorem convertPath_of_not_drive {second : UInt8} (hcolon : separator second ≠ 58) (first : UInt8)
    (rest : Bytes) : convertPath separator drive (first :: second :: rest) =
      separator first :: separator second :: rest.map separator := by
  rw [convertPath, List.map_cons, List.map_cons]
  exact if_neg hcolon

/-- Converting there, back and there again is converting once. -/
theorem Undoes.convertPath_eq (h : Undoes separator drive separator' drive') (path : Bytes) :
    convertPath separator drive (convertPath separator' drive' (convertPath separator drive path)) =
      convertPath separator drive path := by
  have hmap (rest : Bytes) : ((rest.map separator).map separator').map separator =
      rest.map separator := by
    rw [List.map_map, List.map_map]
    exact List.map_congr_left fun c _ => h.separator_eq c
  match path with
  | [] => rfl
  | [c] => exact congrArg ([·]) (h.separator_eq c)
  | first :: second :: rest =>
    -- the second byte stays a colon or not, so all three conversions take one branch
    by_cases hcolon : second = 58
    · have hthere : separator second = 58 := (h.colon_iff second).mpr hcolon
      have hback : separator' (separator second) = 58 := (h.colon_iff' _).mpr hthere
      have hagain : separator (separator' (separator second)) = 58 := (h.colon_iff _).mpr hback
      rw [convertPath_of_drive hthere, convertPath_of_drive hback, convertPath_of_drive hagain,
        h.drive_eq, h.separator_eq, hmap]
    · have hthere : separator second ≠ 58 := mt (h.colon_iff second).mp hcolon
      have hback : separator' (separator second) ≠ 58 := mt (h.colon_iff' _).mp hthere
      have hagain : separator (separator' (separator second)) ≠ 58 := mt (h.colon_iff _).mp hback
      rw [convertPath_of_not_drive hthere, convertPath_of_not_drive hback,
        convertPath_of_not_drive hagain, h.separator_eq, h.separator_eq, hmap]

end

theorem undoes_linux : Undoes (fun c => if c = 92 then 47 else c) tolower
    (fun c => if c = 47 then 92 else c) (fun c => if islower c then toupper c else c) where
  separator_eq := Readers.forall_byte (by decide +kernel)
  colon_iff := Readers.forall_byte (by decide +kernel)
  colon_iff' := Readers.forall_byte (by decide +kernel)
  drive_eq := Readers.forall_byte (by decide +kernel)

theorem undoes_windows : Undoes (fun c => if c = 47 then 92 else c)
    (fun c => if islower c then toupper c else c) (fun c => if c = 92 then 47 else c) tolower where
  separator_eq := Readers.forall_byte (by decide +kernel)
  colon_iff := undoes_linux.colon_iff'
  colon_iff' := undoes_linux.colon_iff
  drive_eq := Readers.forall_byte (by decide +kernel)

/-- Each conversion is a quasi-inverse of the other, on all byte strings. -/
theorem convert_path_quasi_inverse (s : Bytes) :
    convert_windows_to_linux_path (convert_linux_to_windows_path
        (convert_windows_to_linux_path s)) = convert_windows_to_linux_path s ∧
      convert_linux_to_windows_path (convert_windows_to_linux_path
        (convert_linux_to_windows_path s)) = convert_linux_to_windows_path s :=
  ⟨undoes_linux.convertPath_eq s, undoes_windows.convertPath_eq s⟩

example : convert_windows_to_linux_path (bytes "C:\\a/b") = bytes "c:/a/b" := by decide

end OpenAPT
