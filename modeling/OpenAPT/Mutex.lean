import Mathlib.Data.Nat.Notation

/-! `std::mutex`, as the thread that holds it. It is not recursive: who locks it twice waits for
ever, and so does everybody after that. -/
namespace OpenAPT

/-- Why a thread does not get the mutex: another one keeps it, or the thread has it already. -/
inductive LockFailure
  | waits
  | relocks
  deriving DecidableEq

/-- The holder after `thread` has locked a mutex with the holder `owner`. -/
def acquire (owner : Option ℕ) (thread : ℕ) : Except LockFailure (Option ℕ) :=
  match owner with
  | none => .ok (some thread)
  | some other => .error (if other = thread then .relocks else .waits)

theorem acquire_none (thread : ℕ) : acquire none thread = .ok (some thread) := rfl

theorem acquire_self (thread : ℕ) : acquire (some thread) thread = .error .relocks := by
  rw [acquire, if_pos rfl]

end OpenAPT
