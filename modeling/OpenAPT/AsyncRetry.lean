import Mathlib.Data.Nat.Find
import OpenAPT.Bytes

/-! `async_retry`, whose handler only sees the exceptions of `std::async` itself. An exception of
the function ends up in the future. -/
namespace OpenAPT.ASTAP

/-- What a call of `async_retry` finds: the exception of each start of a thread, if it fails, what
each call of the function returns or throws, and `runtime_error`. -/
structure RetryEnv (E V : Type*) where
  launch : ℕ → Option E
  func : ℕ → Except E V
  runtime_error : Bytes → E

/-- The exception of `async_retry`, or what the future holds in the end, and how often the function
was called. -/
structure Retried (E V : Type*) where
  result : Except E (Except E V)
  invocations : ℕ

namespace RetryEnv

variable {E V : Type*}

/-- `async(launch::async, func)`, with the calls of both so far. -/
def async (e : RetryEnv E V) (launches invocations : ℕ) : Except E (Retried E V) :=
  match e.launch launches with
  | some error => .error error
  | none => .ok ⟨.ok (e.func invocations), invocations + 1⟩

/-- A number of attempts below `1` is like `0`. -/
def async_retry (e : RetryEnv E V) (attempts_left launches invocations : ℕ) : Retried E V :=
  match attempts_left with
  | 0 => ⟨.error (e.runtime_error (bytes "Exceeded maximum attempts")), invocations⟩
  | attempts_left + 1 =>
    match e.async launches invocations with
    | .ok future => future
    | .error error =>
      if attempts_left = 0 then ⟨.error error, invocations⟩
      else e.async_retry attempts_left (launches + 1) invocations

/-- The call of `async_retry` with `n` attempts. -/
def run (e : RetryEnv E V) (n : ℕ) : Retried E V := e.async_retry n 0 0

def Throws (e : RetryEnv E V) (i : ℕ) : Prop := ∃ error, e.func i = .error error

/-- The first result of the function within `n` calls is returned; where there is none, an error is
reported; and there are not more than `n` calls. -/
structure Retries (e : RetryEnv E V) (n : ℕ) : Prop where
  yields : ∀ k < n, ∀ v, (∀ i < k, e.Throws i) → e.func k = .ok v →
    (e.run n).result = .ok (.ok v)
  reports : (∀ i < n, e.Throws i) →
    ∃ error, (e.run n).result = .error error ∨ (e.run n).result = .ok (.error error)
  bounded : (e.run n).invocations ≤ n

/-- The first call of the function returns, in a thread that could be started, or no call does. -/
def FirstOrNone (e : RetryEnv E V) (n : ℕ) : Prop :=
  ((∃ i < n, e.launch i = none) ∧ ∃ v, e.func 0 = .ok v) ∨ ∀ i < n, e.Throws i

/-- The function is called once, as soon as a thread starts, and its result is the one of the
future. -/
theorem async_retry_of_launch {e : RetryEnv E V} {n launches : ℕ} (invocations : ℕ)
    (h : ∃ i < n, e.launch (launches + i) = none) :
    e.async_retry n launches invocations = ⟨.ok (e.func invocations), invocations + 1⟩ := by
  induction n generalizing launches with
  | zero =>
    obtain ⟨i, hi, -⟩ := h
    exact absurd hi (Nat.not_lt_zero i)
  | succ n ih =>
    obtain ⟨i, hi, hlaunch⟩ := h
    cases hfirst : e.launch launches with
    | none => simp only [async_retry, async, hfirst]
    | some error =>
      -- this attempt starts no thread, so a later one does
      have hpos : i ≠ 0 := by
        rintro rfl
        cases hfirst.symm.trans hlaunch
      have hleft : n ≠ 0 := by omega
      have hnext : launches + 1 + (i - 1) = launches + i := by omega
      simp only [async_retry, async, hfirst, if_neg hleft]
      exact ih ⟨i - 1, by omega, hnext ▸ hlaunch⟩

/-- Where no thread starts, the function is not called. -/
theorem async_retry_of_no_launch {e : RetryEnv E V} {n launches : ℕ} (invocations : ℕ)
    (h : ∀ i < n, e.launch (launches + i) ≠ none) :
    ∃ error, e.async_retry n launches invocations = ⟨.error error, invocations⟩ := by
  induction n generalizing launches with
  | zero => exact ⟨_, rfl⟩
  | succ n ih =>
    obtain ⟨error, hfirst⟩ := Option.ne_none_iff_exists'.mp (h 0 (Nat.succ_pos n))
    rw [Nat.add_zero] at hfirst
    by_cases hleft : n = 0
    · exact ⟨error, by simp only [async_retry, async, hfirst, if_pos hleft]⟩
    · simp only [async_retry, async, hfirst, if_neg hleft]
      apply ih
      intro i hi
      rw [Nat.add_assoc, Nat.add_comm 1]
      exact h (i + 1) (Nat.succ_lt_succ hi)

/-- Either the result is that of the first call, or there is no call. -/
theorem run_cases (e : RetryEnv E V) (n : ℕ) :
    (∃ i < n, e.launch i = none) ∧ e.run n = ⟨.ok (e.func 0), 1⟩ ∨
      ∃ error, e.run n = ⟨.error error, 0⟩ := by
  by_cases h : ∃ i < n, e.launch i = none
  · refine Or.inl ⟨h, async_retry_of_launch 0 ?_⟩
    simpa only [Nat.zero_add] using h
  · refine Or.inr (async_retry_of_no_launch 0 fun i hi hlaunch => h ⟨i, hi, ?_⟩)
    rwa [Nat.zero_add] at hlaunch

theorem ok_of_not_throws {e : RetryEnv E V} {i : ℕ} (h : ¬ e.Throws i) : ∃ v, e.func i = .ok v := by
  cases hfunc : e.func i with
  | ok v => exact ⟨v, rfl⟩
  | error error => exact absurd ⟨error, hfunc⟩ h

/-- `async_retry` retries exactly where there is nothing to retry, or no use in it. -/
theorem retries_iff (e : RetryEnv E V) (n : ℕ) : e.Retries n ↔ e.FirstOrNone n := by
  constructor
  · intro h
    by_cases hall : ∀ i < n, e.Throws i
    · exact Or.inr hall
    · -- the first call that does not throw has to be the one that is made
      obtain ⟨i, hi⟩ := not_forall.mp hall
      classical
      have hex : ∃ k, k < n ∧ ¬ e.Throws k := ⟨i, Classical.not_imp.mp hi⟩
      obtain ⟨hlt, hk⟩ := Nat.find_spec hex
      obtain ⟨v, hv⟩ := ok_of_not_throws hk
      have hbefore (j : ℕ) (hj : j < Nat.find hex) : e.Throws j := by
        by_contra hnot
        exact Nat.find_min hex hj ⟨Nat.lt_trans hj hlt, hnot⟩
      have hresult := h.yields _ hlt v hbefore hv
      rcases e.run_cases n with ⟨hlaunch, hrun⟩ | ⟨error, hrun⟩
      · rw [hrun] at hresult
        exact Or.inl ⟨hlaunch, v, Except.ok.inj hresult⟩
      · rw [hrun] at hresult
        cases hresult
  · -- the first call returns, or all of them throw
    rintro (⟨⟨i, hi, hlaunch⟩, v, hv⟩ | hall)
    · have hrun : e.run n = ⟨.ok (e.func 0), 1⟩ :=
        async_retry_of_launch 0 ⟨i, hi, by rwa [Nat.zero_add]⟩
      have hpos : 0 < n := Nat.zero_lt_of_lt hi
      refine ⟨fun k _ w hbefore hw => ?_, fun hall => ?_, ?_⟩
      · have hzero : k = 0 := by
          by_contra hne
          obtain ⟨error, herror⟩ := hbefore 0 (Nat.pos_of_ne_zero hne)
          cases hv.symm.trans herror
        rw [hrun, ← hzero, hw]
      · obtain ⟨error, herror⟩ := hall 0 hpos
        cases hv.symm.trans herror
      · rw [hrun]
        exact hpos
    · refine ⟨fun k hk w _ hw => ?_, fun _ => ?_, ?_⟩
      · obtain ⟨error, herror⟩ := hall k hk
        cases hw.symm.trans herror
      · rcases e.run_cases n with ⟨⟨i, hi, -⟩, hrun⟩ | ⟨error, hrun⟩
        · obtain ⟨error, herror⟩ := hall 0 (Nat.zero_lt_of_lt hi)
          exact ⟨error, Or.inr (by rw [hrun, herror])⟩
        · exact ⟨error, Or.inl (by rw [hrun])⟩
      · rcases e.run_cases n with ⟨⟨i, hi, -⟩, hrun⟩ | ⟨error, hrun⟩
        · rw [hrun]
          exact Nat.zero_lt_of_lt hi
        · rw [hrun]
          exact Nat.zero_le n

/-- A function that throws once and then returns. -/
def secondTime : RetryEnv Bytes ℕ where
  launch _ := none
  func i := if i = 0 then .error (bytes "busy") else .ok i
  runtime_error := id

/-- Of three attempts only the first is made. -/
theorem not_retries_secondTime : ¬ secondTime.Retries 3 := by
  intro h
  have hresult := h.yields 1 (by decide) 1 (fun i hi => ?_) rfl
  · cases hresult
  · obtain rfl := Nat.lt_one_iff.mp hi
    exact ⟨bytes "busy", rfl⟩

end RetryEnv

end OpenAPT.ASTAP
