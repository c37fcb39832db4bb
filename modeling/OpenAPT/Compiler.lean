import OpenAPT.Json
import OpenAPT.Lib.EventMachine

/-! `Compiler`: modules compiled into shared libraries, behind a cache of names. -/
namespace OpenAPT

open EventMachine

/-- A call of `CompileToSharedLibrary` and what it meets: whether the output directory is there and
can be created, `compile_options.json` (`none` if it cannot be opened) as far as it can be parsed,
and for which commands `popen` gets a process. -/
structure CompileCall where
  code : Bytes
  moduleName : Bytes
  functionName : Bytes
  outputDirExists : Except StdException Bool
  create_directories : Except StdException Unit
  compileOptionFile : Option (Except StdException Json)
  popen : Bytes → Bool

/-- How far a call gets that is not answered from the cache. -/
inductive CompileResult
  | throws (e : StdException)
  | rejected
  | compiled
  | undefined

/-- The compiler and the files on disk, each by the code it was built from. -/
structure Compiler (P : Type) where
  cache_ : List (Bytes × Bytes)
  disk : P → Option Bytes

namespace CompileCall

/-- The parameters pass their check. -/
def valid (c : CompileCall) : Bool :=
  !(c.code.isEmpty || c.moduleName.isEmpty || c.functionName.isEmpty)

def key (c : CompileCall) : Bytes := c.moduleName ++ bytes "::" ++ c.functionName

def output (c : CompileCall) : Bytes := bytes "modules/global/" ++ c.moduleName ++ bytes ".so"

/-- `compileOptions`, unless the call ends with an error there. -/
def compileOptions (c : CompileCall) : Option Bytes :=
  match c.compileOptionFile with
  | none => some (bytes "-shared -fPIC -x c++ ")
  | some (.error _) => none
  | some (.ok compileOptionsJson) =>
    match compileOptionsJson.find? (bytes "optimization_level"),
        compileOptionsJson.find? (bytes "cplus_version"),
        compileOptionsJson.find? (bytes "warnings") with
    | some optimization_level, some cplus_version, some warnings =>
      match optimization_level.getString, cplus_version.getString, warnings.getString with
      | .ok level, .ok version, .ok warnings =>
        some (level ++ bytes " " ++ version ++ bytes " " ++ warnings ++ bytes " ")
      | _, _, _ => none
    | _, _, _ => none

/-- The exit code of a command. A stream that `popen` has opened is closed with `fclose` and then
given to `pclose`, which closes it once more: what happens then is not defined. -/
def RunShellCommand (c : CompileCall) (command : Bytes) : Option Int32 :=
  if c.popen command then none else some (-1)

def syntaxCheckCmd : Bytes := bytes "g++ -fsyntax-only -x c++ -"

/-- Whether the output directory is there in the end. The `exists` that asks for it first stands
outside the try block. -/
def makesOutputDir (c : CompileCall) : Except StdException Bool :=
  match c.outputDirExists with
  | .error e => .error e
  | .ok true => .ok true
  | .ok false => .ok c.create_directories.isOk

/-- The call after the lookup in the cache. -/
def compile (c : CompileCall) : CompileResult :=
  match c.makesOutputDir with
  | .error e => .throws e
  | .ok false => .rejected
  | .ok true =>
    match c.compileOptions with
    | none => .rejected
    | some compileOptions =>
      match c.RunShellCommand syntaxCheckCmd with
      | none => .undefined
      | some exitCode =>
        if exitCode ≠ 0 then .rejected
        else
          let cmd := bytes "g++ " ++ compileOptions ++ bytes " -  -o " ++ c.output
          match c.RunShellCommand cmd with
          | none => .undefined
          | some exitCode => if exitCode ≠ 0 then .rejected else .compiled

/-- The call ends, with an error, before a process is started for it. -/
def StartsNothing (c : CompileCall) : Prop :=
  c.valid = true → c.makesOutputDir = .ok true → c.compileOptions.isSome →
    c.popen syntaxCheckCmd = false

/-- A call that starts a process is not defined; no other one gets to compile its code. -/
theorem compile_eq {c : CompileCall} (hvalid : c.valid = true) :
    (c.StartsNothing ∧ (c.compile = .rejected ∨ ∃ e, c.compile = .throws e)) ∨
      ¬ c.StartsNothing ∧ c.compile = .undefined := by
  simp only [StartsNothing, compile, RunShellCommand, hvalid, forall_const]
  rcases c.makesOutputDir with e | _ | _
  · simp
  · simp
  cases c.compileOptions with
  | none => simp
  | some compileOptions =>
    cases c.popen syntaxCheckCmd with
    | true => simp
    | false => simp

end CompileCall

namespace Compiler

-- which file a name denotes
variable {P : Type} [DecidableEq P] (resolve : Bytes → P)

/-- What the call returns or throws, and the state afterwards; `none` if it is not defined. The
compiler builds the library from its input exactly when it exits with success. -/
def CompileToSharedLibrary (s : Compiler P) (c : CompileCall) :
    Option (Except StdException Bool × Compiler P) :=
  if c.valid = false then some (.ok false, s)
  else if (KeyedList.find? c.key s.cache_).isSome then some (.ok true, s)
  else
    match c.compile with
    | .undefined => none
    | .throws e => some (.error e, s)
    | .rejected => some (.ok false, s)
    | .compiled =>
      -- the code that loaded the module and returned true is commented out
      some (.ok false, { cache_ := KeyedList.insert c.key c.output s.cache_
                         disk := Function.update s.disk (resolve c.output) (some c.code) })

def step (s : Compiler P) (c : CompileCall) : Option (Compiler P) :=
  (CompileToSharedLibrary resolve s c).map Prod.snd

/-- The call is defined, and it returns true exactly if the library of its module is there
afterwards, built from its code. -/
def Coherent (s : Compiler P) (c : CompileCall) : Prop :=
  ∃ result t, CompileToSharedLibrary resolve s c = some (result, t) ∧
    (result = .ok true ↔ t.disk (resolve c.output) = some c.code)

/-- As long as nothing is in the cache, a call that starts no process changes nothing and does not
return true, and every other call is undefined. -/
theorem call_of_cache_nil {s : Compiler P} (hs : s.cache_ = []) (c : CompileCall) :
    (c.StartsNothing ∧ ∃ result, result ≠ .ok true ∧
        CompileToSharedLibrary resolve s c = some (result, s)) ∨
      ¬ c.StartsNothing ∧ CompileToSharedLibrary resolve s c = none := by
  unfold CompileToSharedLibrary
  cases hvalid : c.valid with
  | false =>
    refine .inl ⟨fun h => ?_, .ok false, nofun, rfl⟩
    cases hvalid.symm.trans h
  | true =>
    rw [hs]
    obtain ⟨hnothing, hcompile | ⟨e, hcompile⟩⟩ | ⟨hstarts, hcompile⟩ :=
      CompileCall.compile_eq hvalid
    · exact .inl ⟨hnothing, .ok false, nofun, by rw [hcompile]; rfl⟩
    · exact .inl ⟨hnothing, .error e, nofun, by rw [hcompile]; rfl⟩
    · exact .inr ⟨hstarts, by rw [hcompile]; rfl⟩

theorem coherent_iff_of_cache_nil {s : Compiler P} (hs : s.cache_ = []) (c : CompileCall) :
    Coherent resolve s c ↔ c.StartsNothing ∧ s.disk (resolve c.output) ≠ some c.code := by
  obtain ⟨hnothing, result, hresult, hcall⟩ | ⟨hstarts, hcall⟩ := call_of_cache_nil resolve hs c
  · rw [and_iff_right hnothing]
    constructor
    · rintro ⟨_, _, hdefined, hiff⟩ hbuilt
      obtain ⟨rfl, rfl⟩ := Prod.mk.inj (Option.some.inj (hcall.symm.trans hdefined))
      exact hresult (hiff.mpr hbuilt)
    · exact fun hbuilt => ⟨result, s, hcall, iff_of_false hresult hbuilt⟩
  · refine iff_of_false ?_ fun h => hstarts h.1
    rintro ⟨result, t, hdefined, -⟩
    cases hcall.symm.trans hdefined

/-- From a new compiler on, all calls are answered right exactly if each of them ends before the
syntax check and finds no library of its code there: a check that is started ends with a stream that
is closed twice. -/
theorem coherent_runs_iff (disk : P → Option Bytes) (calls : List CompileCall) :
    Steps (step resolve) (Coherent resolve) ⟨[], disk⟩ calls ↔
      ∀ c ∈ calls, c.StartsNothing ∧ disk (resolve c.output) ≠ some c.code := by
  induction calls with
  | nil => exact iff_of_true trivial (List.forall_mem_nil _)
  | cons c calls ih =>
    rw [List.forall_mem_cons, ← ih, Steps, coherent_iff_of_cache_nil resolve rfl]
    apply and_congr_right
    intro ⟨hnothing, _⟩
    -- a call that starts no process leaves the compiler as it is
    obtain ⟨-, result, -, hcall⟩ | ⟨hstarts, -⟩ := call_of_cache_nil resolve (s := ⟨[], disk⟩) rfl c
    · have hstep : step resolve ⟨[], disk⟩ c = some ⟨[], disk⟩ := by rw [step, hcall]; rfl
      simp only [hstep, Option.some.injEq, forall_eq']
    · exact absurd hnothing hstarts

/-- A call for the function "f" of the module "m" that comes to the syntax check. -/
def compiling (code : Bytes) : CompileCall where
  code := code
  moduleName := bytes "m"
  functionName := bytes "f"
  outputDirExists := .ok true
  create_directories := .ok ()
  compileOptionFile := none
  popen _ := true

/-- The first call of a new compiler is not defined; and a call that gets no process returns false
although the library of its code is there. -/
theorem not_coherent_compiling :
    (∀ disk : Bytes → Option Bytes,
      CompileToSharedLibrary id ⟨[], disk⟩ (compiling (bytes "int f();")) = none ∧
        ¬ Coherent id ⟨[], disk⟩ (compiling (bytes "int f();"))) ∧
      ¬ Coherent id ⟨[], fun _ => some (bytes "int f();")⟩
        { compiling (bytes "int f();") with popen := fun _ => false } := by
  refine ⟨fun disk => ⟨rfl, ?_⟩, ?_⟩
  · rintro ⟨result, t, hdefined, -⟩
    cases hdefined
  · rintro ⟨result, t, hdefined, hiff⟩
    cases hdefined
    cases hiff.mpr rfl

end Compiler

end OpenAPT
