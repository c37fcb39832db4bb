import Mathlib.Data.Fintype.Basic
import Mathlib.Logic.Function.Basic
import Mathlib.Tactic.Common

/-! One mutex with one condition variable, for any set of threads. A thread stands somewhere outside
the critical sections, or at one of them. -/

/-- Where a thread stands: outside, waiting to lock the mutex for a critical section, inside it,
blocked in the `wait` of the condition variable there, or woken and waiting to lock it again. -/
inductive Phase (O I : Type*)
  | outside (o : O)
  | locking (i : I)
  | inside (i : I)
  | parked (i : I)
  | woken (i : I)
  deriving DecidableEq

namespace Phase

variable {O I : Type*}

def Inside (ph : Phase O I) : Prop := ∃ i, ph = inside i

def Parked (ph : Phase O I) : Prop := ∃ i, ph = parked i

instance (ph : Phase O I) : Decidable ph.Parked :=
  match ph with
  | parked i => isTrue ⟨i, rfl⟩
  | outside _ | locking _ | inside _ | woken _ => isFalse nofun

def Woken (ph : Phase O I) : Prop := ∃ i, ph = woken i

instance (ph : Phase O I) : Decidable ph.Woken :=
  match ph with
  | woken i => isTrue ⟨i, rfl⟩
  | outside _ | locking _ | inside _ | parked _ => isFalse nofun

/-- The critical section that a thread is at, or that it waits for. -/
def section? : Phase O I → Option I
  | outside _ => none
  | locking i | inside i | parked i | woken i => some i

/-- What a notification does to a thread. -/
def wake : Phase O I → Phase O I
  | parked i => woken i
  | ph => ph

@[simp] theorem inside_inside (i : I) : (inside i : Phase O I).Inside := ⟨i, rfl⟩
@[simp] theorem not_inside_outside (o : O) : ¬ (outside o : Phase O I).Inside := nofun
@[simp] theorem not_inside_locking (i : I) : ¬ (locking i : Phase O I).Inside := nofun
@[simp] theorem not_inside_parked (i : I) : ¬ (parked i : Phase O I).Inside := nofun
@[simp] theorem not_inside_woken (i : I) : ¬ (woken i : Phase O I).Inside := nofun

@[simp] theorem not_parked_outside (o : O) : ¬ (outside o : Phase O I).Parked := nofun
@[simp] theorem not_parked_locking (i : I) : ¬ (locking i : Phase O I).Parked := nofun
@[simp] theorem not_parked_inside (i : I) : ¬ (inside i : Phase O I).Parked := nofun
@[simp] theorem not_parked_woken (i : I) : ¬ (woken i : Phase O I).Parked := nofun

@[simp] theorem section?_outside (o : O) : (outside o : Phase O I).section? = none := rfl
@[simp] theorem section?_locking (i : I) : (locking i : Phase O I).section? = some i := rfl
@[simp] theorem section?_inside (i : I) : (inside i : Phase O I).section? = some i := rfl
@[simp] theorem section?_parked (i : I) : (parked i : Phase O I).section? = some i := rfl
@[simp] theorem section?_woken (i : I) : (woken i : Phase O I).section? = some i := rfl

@[simp] theorem section?_wake (ph : Phase O I) : ph.wake.section? = ph.section? := by
  cases ph <;> rfl

@[simp] theorem not_parked_wake (ph : Phase O I) : ¬ ph.wake.Parked := by
  cases ph <;> nofun

@[simp] theorem wake_eq_outside {ph : Phase O I} {o : O} :
    ph.wake = outside o ↔ ph = outside o := by
  cases ph <;> simp only [wake, reduceCtorEq]

@[simp] theorem inside_wake {ph : Phase O I} : ph.wake.Inside ↔ ph.Inside := by
  cases ph <;> simp only [wake, not_inside_parked, not_inside_woken]

end Phase

structure Monitor (T : Type*) (O I : T → Type*) where
  owner : Option T
  phase : ∀ t, Phase (O t) (I t)

namespace Monitor

variable {T : Type*} {O I : T → Type*} [DecidableEq T]

/-- A thread that waits for the mutex, at first or after it was woken, gets it. -/
def lock? (m : Monitor T O I) (t : T) : Option (Monitor T O I) :=
  match m.owner, m.phase t with
  | none, .locking i => some ⟨some t, Function.update m.phase t (.inside i)⟩
  | none, .woken i => some ⟨some t, Function.update m.phase t (.inside i)⟩
  | _, _ => none

/-- A thread moves on without the mutex. -/
def goto (m : Monitor T O I) (t : T) (ph : Phase (O t) (I t)) : Monitor T O I :=
  { m with phase := Function.update m.phase t ph }

/-- A thread gives the mutex up, at the end of the critical section or on entering `wait`. -/
def release (m : Monitor T O I) (t : T) (ph : Phase (O t) (I t)) : Monitor T O I where
  owner := none
  phase := Function.update m.phase t ph

/-- One blocked thread is woken, by a notification or spuriously. -/
def wake? (m : Monitor T O I) (t : T) : Option (Monitor T O I) :=
  match m.phase t with
  | .parked i => some (m.goto t (.woken i))
  | _ => none

/-- `notify_one`: any one of the blocked threads is woken, and none only if none is blocked. -/
def notifyOne? [Fintype T] (m : Monitor T O I) (target : Option T) : Option (Monitor T O I) :=
  match target with
  | some t => m.wake? t
  | none => if ∀ t, ¬ (m.phase t).Parked then some m else none

/-- `notify_all`. -/
def notifyAll (m : Monitor T O I) : Monitor T O I :=
  { m with phase := fun t => (m.phase t).wake }

@[simp] theorem goto_phase_self (m : Monitor T O I) (t : T) (ph : Phase (O t) (I t)) :
    (m.goto t ph).phase t = ph := by
  simp only [goto, Function.update_self]

@[simp] theorem release_phase_self (m : Monitor T O I) (t : T) (ph : Phase (O t) (I t)) :
    (m.release t ph).phase t = ph := by
  simp only [release, Function.update_self]

theorem goto_phase_of_ne (m : Monitor T O I) {t u : T} (h : u ≠ t) (ph : Phase (O t) (I t)) :
    (m.goto t ph).phase u = m.phase u := by
  simp only [goto, Function.update_of_ne h]

theorem release_phase_of_ne (m : Monitor T O I) {t u : T} (h : u ≠ t) (ph : Phase (O t) (I t)) :
    (m.release t ph).phase u = m.phase u := by
  simp only [release, Function.update_of_ne h]

theorem lock?_eq_some {m m' : Monitor T O I} {t : T} (h : m.lock? t = some m') :
    ∃ i, m.owner = none ∧ (m.phase t = .locking i ∨ m.phase t = .woken i) ∧
      m' = ⟨some t, Function.update m.phase t (.inside i)⟩ := by
  unfold lock? at h
  split at h
  next i howner hphase => exact ⟨i, howner, .inl hphase, (Option.some.inj h).symm⟩
  next i howner hphase => exact ⟨i, howner, .inr hphase, (Option.some.inj h).symm⟩
  next => cases h

theorem wake?_eq_some {m m' : Monitor T O I} {t : T} (h : m.wake? t = some m') :
    ∃ i, m.phase t = .parked i ∧ m' = m.goto t (.woken i) := by
  unfold wake? at h
  split at h
  next i hphase => exact ⟨i, hphase, (Option.some.inj h).symm⟩
  next => cases h

theorem notifyOne?_eq_some [Fintype T] {m m' : Monitor T O I} {target : Option T}
    (h : m.notifyOne? target = some m') :
    (∃ t i, target = some t ∧ m.phase t = .parked i ∧ m' = m.goto t (.woken i)) ∨
      target = none ∧ (∀ t, ¬ (m.phase t).Parked) ∧ m' = m := by
  cases target with
  | some t =>
    obtain ⟨i, hphase, rfl⟩ := wake?_eq_some h
    exact .inl ⟨t, i, rfl, hphase, rfl⟩
  | none =>
    simp only [notifyOne?, Option.ite_none_right_eq_some, Option.some.injEq] at h
    exact .inr ⟨rfl, h.1, h.2.symm⟩

/-- A notification leaves a thread where it is, or wakes it. -/
theorem notifyOne?_phase [Fintype T] {m m' : Monitor T O I} {target : Option T}
    (h : m.notifyOne? target = some m') (u : T) :
    m'.phase u = m.phase u ∨ m'.phase u = (m.phase u).wake := by
  obtain ⟨t, i, -, ht, rfl⟩ | ⟨-, -, rfl⟩ := notifyOne?_eq_some h
  · by_cases hu : u = t
    · subst hu
      right
      simp only [goto, Function.update_self, ht, Phase.wake]
    · exact .inl (Function.update_of_ne hu _ _)
  · exact .inl rfl

/-- The thread that is notified is not blocked any more. -/
theorem notifyOne?_some [Fintype T] {m m' : Monitor T O I} {t : T}
    (h : m.notifyOne? (some t) = some m') : ¬ (m'.phase t).Parked := by
  obtain ⟨i, -, rfl⟩ := wake?_eq_some h
  simp only [goto, Function.update_self, Phase.not_parked_woken, not_false_eq_true]

/-- If a notification wakes nobody, nobody was blocked. -/
theorem notifyOne?_none [Fintype T] {m m' : Monitor T O I} (h : m.notifyOne? none = some m')
    (t : T) : ¬ (m'.phase t).Parked := by
  obtain ⟨u, i, hu, -⟩ | ⟨-, hnone, rfl⟩ := notifyOne?_eq_some h
  · cases hu
  · exact hnone t

/-- The mutex excludes: its owner is the one thread inside a critical section. -/
def Exclusive (m : Monitor T O I) : Prop := ∀ t, (m.phase t).Inside ↔ m.owner = some t

namespace Exclusive

variable {m m' : Monitor T O I} {t : T}

theorem lock (hm : m.Exclusive) (hfree : m.owner = none) (i : I t) :
    Exclusive ⟨some t, Function.update m.phase t (.inside i)⟩ := by
  intro u
  by_cases hu : u = t
  · subst hu
    simp only [Function.update_self, Phase.inside_inside]
  · have hout : ¬ (m.phase u).Inside := by
      rw [hm u, hfree]
      exact nofun
    simp only [Function.update_of_ne hu, hout, Option.some.injEq, Ne.symm hu]

theorem goto (hm : m.Exclusive) (ht : ¬ (m.phase t).Inside) {ph : Phase (O t) (I t)}
    (hph : ¬ ph.Inside) : (m.goto t ph).Exclusive := by
  intro u
  by_cases hu : u = t
  · subst hu
    rw [hm u] at ht
    simp only [Monitor.goto, Function.update_self, hph, ht]
  · simpa only [Monitor.goto, Function.update_of_ne hu] using hm u

theorem release (hm : m.Exclusive) (ht : (m.phase t).Inside) {ph : Phase (O t) (I t)}
    (hph : ¬ ph.Inside) : (m.release t ph).Exclusive := by
  have howner : m.owner = some t := (hm t).mp ht
  intro u
  by_cases hu : u = t
  · subst hu
    simp only [Monitor.release, Function.update_self, hph, reduceCtorEq]
  · have hout : ¬ (m.phase u).Inside := by
      rw [hm u, howner]
      exact fun h => hu (Option.some.inj h).symm
    simp only [Monitor.release, Function.update_of_ne hu, hout, reduceCtorEq]

theorem wake (hm : m.Exclusive) {i : I t} (ht : m.phase t = .parked i) :
    (m.goto t (.woken i)).Exclusive :=
  hm.goto (by rw [ht]; exact Phase.not_inside_parked i) (Phase.not_inside_woken i)

theorem notifyOne? [Fintype T] (hm : m.Exclusive) {target : Option T}
    (h : m.notifyOne? target = some m') : m'.Exclusive := by
  obtain ⟨t, i, -, ht, rfl⟩ | ⟨-, -, rfl⟩ := notifyOne?_eq_some h
  · exact hm.wake ht
  · exact hm

omit [DecidableEq T] in
theorem notifyAll (hm : m.Exclusive) : m.notifyAll.Exclusive := by
  intro u
  simpa only [Monitor.notifyAll, Phase.inside_wake] using hm u

end Exclusive

/-- Every thread stands where `φ` lets it stand. -/
def All (φ : ∀ t, Phase (O t) (I t) → Prop) (m : Monitor T O I) : Prop := ∀ t, φ t (m.phase t)

namespace All

variable {φ ψ : ∀ t, Phase (O t) (I t) → Prop} {m m' : Monitor T O I} {t : T}

omit [DecidableEq T] in
theorem imp (hm : m.All φ) (h : ∀ t ph, φ t ph → ψ t ph) : m.All ψ := fun t => h t _ (hm t)

theorem update (hm : m.All φ) {ph : Phase (O t) (I t)} (hph : φ t ph) (u : T) :
    φ u (Function.update m.phase t ph u) := by
  by_cases hu : u = t
  · subst hu
    rwa [Function.update_self]
  · rw [Function.update_of_ne hu]
    exact hm u

theorem goto (hm : m.All φ) {ph : Phase (O t) (I t)} (hph : φ t ph) : (m.goto t ph).All φ :=
  hm.update hph

theorem release (hm : m.All φ) {ph : Phase (O t) (I t)} (hph : φ t ph) : (m.release t ph).All φ :=
  hm.update hph

omit [DecidableEq T] in
theorem notifyAll (hm : m.All φ) (hwake : ∀ t ph, φ t ph → φ t ph.wake) : m.notifyAll.All φ :=
  fun t => hwake t _ (hm t)

end All

/-- Whoever is inside a critical section owns the mutex; its owner may be elsewhere. -/
def Owned (m : Monitor T O I) : Prop := m.All fun t ph => ph.Inside → m.owner = some t

namespace Owned

variable {m : Monitor T O I} {t : T}

theorem lock (hm : m.Owned) (hfree : m.owner = none) (i : I t) :
    Owned ⟨some t, Function.update m.phase t (.inside i)⟩ := by
  intro u hu
  by_cases hut : u = t
  · exact congrArg some hut.symm
  · have hin : (m.phase u).Inside := by
      simpa only [Function.update_of_ne hut] using hu
    exact nomatch hfree.symm.trans (hm u hin)

theorem goto (hm : m.Owned) {ph : Phase (O t) (I t)} (hph : ph.Inside → m.owner = some t) :
    (m.goto t ph).Owned :=
  All.goto hm hph

theorem release (hm : m.Owned) (howner : m.owner = some t) {ph : Phase (O t) (I t)}
    (hph : ¬ ph.Inside) : (m.release t ph).Owned := by
  intro u hu
  by_cases hut : u = t
  · subst hut
    rw [release_phase_self] at hu
    exact absurd hu hph
  · rw [release_phase_of_ne m hut] at hu
    have heq : some t = some u := howner.symm.trans (hm u hu)
    exact absurd (Option.some.inj heq).symm hut

omit [DecidableEq T] in
theorem notifyAll (hm : m.Owned) : m.notifyAll.Owned :=
  All.notifyAll hm fun _ _ h hin => h (Phase.inside_wake.mp hin)

end Owned

end Monitor
