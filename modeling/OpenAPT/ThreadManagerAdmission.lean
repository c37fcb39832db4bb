import Mathlib.Data.Finset.Card
import OpenAPT.ThreadManager

/-! `addThread` waits until the list of threads is short enough, while an added thread stays in the
list until somebody joins it by its name. -/
namespace OpenAPT.ThreadManager

open EventMachine

variable {m : ℕ} {s t : ThreadManager m}

/-- The function of the thread has not returned. -/
def Running (s : ThreadManager m) (i : ℕ) : Prop :=
  s.phase (.added i) = .outside AddedAt.running

instance (s : ThreadManager m) (i : ℕ) : Decidable (s.Running i) :=
  inferInstanceAs (Decidable (s.phase (.added i) = .outside AddedAt.running))

/-- The added threads whose functions have not returned. -/
def unfinished (s : ThreadManager m) : Finset ℕ := (Finset.range s.created).filter s.Running

/-- No more threads than the limit have unfinished functions, and while there are fewer,
`addThread` need not wait. -/
def GivesSlotsBack (s : ThreadManager m) : Prop :=
  (s.unfinished.card : ℤ) ≤ s.m_maxThreads.toInt ∧
    (s.m_stopFlag = false → (s.unfinished.card : ℤ) < s.m_maxThreads.toInt → s.hasRoom = true)

/-- A function returns only while the list has room, and the thread that fills the list finds all
the others of the list unfinished. -/
def KeepsSlots (s : ThreadManager m) : Event m → Prop
  | .finish _ => s.m_stopFlag = true ∨ s.hasRoom = true
  | .admitThread _ _ => s.m_stopFlag = false → s.hasRoom = true →
    s.m_threads.length + 1 < s.limit ∨ s.unfinished.card = s.m_threads.length
  | _ => True

instance (s : ThreadManager m) : Decidable s.GivesSlotsBack :=
  inferInstanceAs (Decidable (_ ∧ _))

theorem mem_unfinished (hs : Inv s) {i : ℕ} : i ∈ s.unfinished ↔ s.Running i := by
  rw [unfinished, Finset.mem_filter, Finset.mem_range, and_iff_right_iff_imp]
  intro hi
  by_contra hle
  have habsent := (hs.absent_iff i).mpr (not_lt.mp hle)
  exact nomatch habsent.symm.trans hi

/-- Every thread with an unfinished function is in the list. -/
theorem card_unfinished_le (hs : Inv s) : s.unfinished.card ≤ s.m_threads.length := by
  have hsubset : s.unfinished ⊆ (s.m_threads.map ThreadEntry.id).toFinset := by
    intro i hi
    have hrunning : s.Running i := (mem_unfinished hs).mp hi
    obtain ⟨hlt, -⟩ := Finset.mem_filter.mp hi
    rcases hs.listed i (Finset.mem_range.mp hlt) with hexited | ⟨e, he, hid, -⟩
    · exact nomatch hexited.symm.trans hrunning
    · exact List.mem_toFinset.mpr (List.mem_map.mpr ⟨e, he, hid⟩)
  calc s.unfinished.card ≤ (s.m_threads.map ThreadEntry.id).toFinset.card :=
        Finset.card_le_card hsubset
    _ ≤ (s.m_threads.map ThreadEntry.id).length := List.toFinset_card_le _
    _ = s.m_threads.length := List.length_map _

theorem limit_of_nonneg (hmax : 0 ≤ s.m_maxThreads.toInt) :
    (s.limit : ℤ) = s.m_maxThreads.toInt := by
  have hlt : s.m_maxThreads.toInt < UInt64.size := by
    have hbound := s.m_maxThreads.toInt_lt
    have hsize : (UInt64.size : ℤ) = 18446744073709551616 := rfl
    omega
  rw [limit, Int.emod_eq_of_lt hmax hlt, Int.toNat_of_nonneg hmax]

theorem hasRoom_iff : s.hasRoom = true ↔ s.m_threads.length < s.limit := decide_eq_true_iff

/-- Two states with the same running threads have the same number of them. -/
theorem unfinished_congr (hs : Inv s) (ht : Inv t) (h : ∀ i, t.Running i ↔ s.Running i) :
    t.unfinished = s.unfinished := by
  ext i
  rw [mem_unfinished ht, mem_unfinished hs, h]

theorem card_unfinished_finish (hs : Inv s) {i : ℕ} (hi : s.Running i) (ht : Inv t)
    (hphase : t.phase = Function.update s.phase (.added i) (.locking AddedSection.epilogue)) :
    t.unfinished.card + 1 = s.unfinished.card := by
  have herase : t.unfinished = s.unfinished.erase i := by
    ext j
    rw [mem_unfinished ht, Finset.mem_erase, mem_unfinished hs, Running, hphase]
    by_cases hij : j = i
    · subst hij
      rw [Function.update_self]
      exact iff_of_false nofun fun h => h.1 rfl
    · rw [Function.update_of_ne (added_ne_added hij), ← Running, and_iff_right hij]
  rw [herase]
  exact Finset.card_erase_add_one ((mem_unfinished hs).mpr hi)

theorem card_unfinished_create (hs : Inv s) {c : Fin m} {name : Bytes} {mon : ManagerMonitor m}
    {target : Option (Fin m)} (ht : Inv (s.create c name mon))
    (hmon : notifyOne? (s.goto (.added s.created) (.outside AddedAt.running)) target = some mon) :
    (s.create c name mon).unfinished.card = s.unfinished.card + 1 := by
  have hnew : s.created ∉ s.unfinished := by
    rw [unfinished, Finset.mem_filter, Finset.mem_range]
    exact fun h => lt_irrefl _ h.1
  have hinsert : (s.create c name mon).unfinished = insert s.created s.unfinished := by
    ext j
    have hphase := notifyOne?_added hmon j
    rw [mem_unfinished ht, Finset.mem_insert, mem_unfinished hs, Running, create,
      release_caller_added, hphase]
    by_cases hj : j = s.created
    · subst hj
      rw [Monitor.goto_phase_self]
      exact iff_of_true rfl (.inl rfl)
    · rw [s.goto_phase_of_ne (added_ne_added hj), ← Running, or_iff_right hj]
  rw [hinsert, Finset.card_insert_of_notMem hnew]

/-- At the end of its function a thread gives back what counts against the limit, but its entry
stays. -/
theorem givesSlotsBack_finish (hs : Inv s) (ht : Inv t) (hmax : 0 ≤ s.m_maxThreads.toInt)
    (hslots : s.GivesSlotsBack) {i : ℕ} (hi : s.Running i)
    (heq : t = { s with toMonitor := s.goto (.added i) (.locking AddedSection.epilogue) }) :
    t.GivesSlotsBack ↔ s.KeepsSlots (.finish i) := by
  have hlimit := limit_of_nonneg hmax
  obtain ⟨hbound, -⟩ := hslots
  have hcard : t.unfinished.card + 1 = s.unfinished.card :=
    card_unfinished_finish hs hi ht (by rw [heq]; rfl)
  have hmax' : t.m_maxThreads = s.m_maxThreads := by rw [heq]
  have hstop' : t.m_stopFlag = s.m_stopFlag := by rw [heq]
  have hroom' : t.hasRoom = s.hasRoom := by rw [heq]; rfl
  rw [GivesSlotsBack, hmax', hstop', hroom', KeepsSlots]
  constructor
  · intro ⟨_, hfree'⟩
    cases hstop : s.m_stopFlag with
    | true => exact .inl rfl
    | false => exact .inr (hfree' hstop (by omega))
  · intro hor
    refine ⟨by omega, fun hstop _ => hor.resolve_left ?_⟩
    rw [hstop]
    exact Bool.false_ne_true

/-- Its exit changes nothing. -/
theorem givesSlotsBack_exit (hs : Inv s) (ht : Inv t) (hslots : s.GivesSlotsBack) {i : ℕ}
    (hi : s.phase (.added i) = .inside AddedSection.epilogue)
    (heq : t = { s with toMonitor := s.release (.added i) (.outside AddedAt.exited) }) :
    t.GivesSlotsBack := by
  have hrunning (j : ℕ) : t.Running j ↔ s.Running j := by
    rw [Running, Running, heq]
    by_cases hij : j = i
    · subst hij
      exact iff_of_false (fun h => nomatch (Monitor.release_phase_self ..).symm.trans h)
        (fun h => nomatch hi.symm.trans h)
    · exact Eq.congr_left (s.release_phase_of_ne (added_ne_added hij) _)
  have hcard := congrArg Finset.card (unfinished_congr hs ht hrunning)
  have hmax' : t.m_maxThreads = s.m_maxThreads := by rw [heq]
  have hstop' : t.m_stopFlag = s.m_stopFlag := by rw [heq]
  have hroom' : t.hasRoom = s.hasRoom := by rw [heq]; rfl
  rw [GivesSlotsBack, hmax', hstop', hroom', hcard]
  exact hslots

/-- A thread that is added takes a slot in both counts. -/
theorem givesSlotsBack_create (hs : Inv s) (hmax : 0 ≤ s.m_maxThreads.toInt)
    (hslots : s.GivesSlotsBack) {c : Fin m} {target : Option (Fin m)} {name : Bytes}
    {mon : ManagerMonitor m} (ht : Inv (s.create c name mon)) (hstop : s.m_stopFlag = false)
    (hroom : s.hasRoom = true)
    (hmon : notifyOne? (s.goto (.added s.created) (.outside AddedAt.running)) target = some mon) :
    (s.create c name mon).GivesSlotsBack ↔ s.KeepsSlots (.admitThread c target) := by
  have hlimit := limit_of_nonneg hmax
  have hle := card_unfinished_le hs
  obtain ⟨hbound, -⟩ := hslots
  have hcard := card_unfinished_create hs ht hmon
  have hlt := hasRoom_iff.mp hroom
  have hroom' : (s.create c name mon).hasRoom = true ↔ s.m_threads.length + 1 < s.limit := by
    have hlength : (s.create c name mon).m_threads.length = s.m_threads.length + 1 :=
      List.length_append
    rw [hasRoom_iff, hlength]
    rfl
  have hmax' : (s.create c name mon).m_maxThreads = s.m_maxThreads := rfl
  have hstop' : (s.create c name mon).m_stopFlag = false := hstop
  rw [GivesSlotsBack, hmax', hstop', hroom', hcard, KeepsSlots, hstop, hroom]
  simp only [forall_const]
  omega

/-- A step beside the added threads leaves the slots as they are. -/
theorem givesSlotsBack_of_aside (hs : Inv s) (ht : Inv t) (hslots : s.GivesSlotsBack)
    {a : Event m} (haside : Aside s a t) : t.GivesSlotsBack := by
  obtain ⟨hbound, hfree⟩ := hslots
  have hcard := congrArg Finset.card
    (unfinished_congr hs ht fun i => haside.outside_iff i AddedAt.running)
  have hroom' : s.hasRoom = true → t.hasRoom = true := by
    have hlimit' : t.limit = s.limit := by rw [limit, limit, haside.max]
    have hlength := haside.threads.length
    rw [hasRoom_iff, hasRoom_iff, hlimit']
    omega
  have hstop' : t.m_stopFlag = false → s.m_stopFlag = false := by
    cases hstop : s.m_stopFlag with
    | false => exact fun _ => rfl
    | true => rw [haside.stop hstop]; exact id
  rw [GivesSlotsBack, haside.max, hcard]
  exact ⟨hbound, fun hstop hlt => hroom' (hfree (hstop' hstop) hlt)⟩

/-- And it meets the condition. -/
theorem keepsSlots_of_aside {a : Event m} (haside : Aside s a t) : s.KeepsSlots a := by
  rcases haside.event with hplain | ⟨⟨c, target, rfl⟩, hor⟩
  · cases a <;> trivial
  · intro hstop hroom
    rw [hstop, hroom] at hor
    exact absurd hor (by decide)

/-- A step keeps the slots exactly when it meets the condition. -/
theorem givesSlotsBack_step {a : Event m} (hs : Inv s) (hmax : 0 ≤ s.m_maxThreads.toInt)
    (hslots : s.GivesSlotsBack) (h : s.step a = some t) :
    t.GivesSlotsBack ↔ s.KeepsSlots a := by
  have ht : Inv t := hs.step h
  obtain ⟨i, rfl, hi, heq⟩ | ⟨i, rfl, hi, heq⟩ | ⟨c, target, name, mon, rfl, hstop, hroom, hmon,
    rfl⟩ | haside := (step_cases h).added_cases hs
  · exact givesSlotsBack_finish hs ht hmax hslots hi heq
  · exact iff_of_true (givesSlotsBack_exit hs ht hslots hi heq) trivial
  · exact givesSlotsBack_create hs hmax hslots ht hstop hroom hmon
  · exact iff_of_true (givesSlotsBack_of_aside hs ht hslots haside) (keepsSlots_of_aside haside)

/-- Nothing writes the limit. -/
theorem maxThreads_step {a : Event m} (hs : Inv s) (h : s.step a = some t) :
    t.m_maxThreads = s.m_maxThreads := by
  obtain ⟨_, _, _, rfl⟩ | ⟨_, _, _, rfl⟩ | ⟨_, _, _, _, _, _, _, _, rfl⟩ | haside :=
    (step_cases h).added_cases hs
  · rfl
  · rfl
  · rfl
  · exact haside.max

theorem init_givesSlotsBack_iff (m : ℕ) (maxThreads : Int32) :
    (init m maxThreads).GivesSlotsBack ↔ 0 ≤ maxThreads.toInt := by
  refine and_iff_left fun _ hlt => hasRoom_iff.mpr ?_
  have hmax : 0 ≤ (init m maxThreads).m_maxThreads.toInt := (Int.natCast_nonneg _).trans hlt.le
  have hlimit := limit_of_nonneg hmax
  have hcard : (init m maxThreads).unfinished.card = 0 := rfl
  have hlength : (init m maxThreads).m_threads.length = 0 := rfl
  omega

/-- The slots are kept along a run exactly when the limit is not negative and every step of it
meets the condition. -/
theorem givesSlotsBack_iff {maxThreads : Int32} {as : List (Event m)}
    (h : run step (init m maxThreads) as = some s) :
    States step GivesSlotsBack (init m maxThreads) as ↔
      0 ≤ maxThreads.toInt ∧ Steps step KeepsSlots (init m maxThreads) as := by
  have hinit := init_givesSlotsBack_iff m maxThreads
  have hiff (hmax : 0 ≤ maxThreads.toInt) :
      States step GivesSlotsBack (init m maxThreads) as ↔
        Steps step KeepsSlots (init m maxThreads) as := by
    apply states_iff_steps (I := fun s => Inv s ∧ s.m_maxThreads = maxThreads) _ _
      ⟨inv_init m maxThreads, rfl⟩ (hinit.mpr hmax) h
    · exact fun s a t ⟨hs, hsmax⟩ hstep => ⟨hs.step hstep, (maxThreads_step hs hstep).trans hsmax⟩
    · exact fun s a t ⟨hs, hsmax⟩ hslots hstep =>
        givesSlotsBack_step hs (hsmax ▸ hmax) hslots hstep
  constructor
  · intro hstates
    have hmax : 0 ≤ maxThreads.toInt := hinit.mp hstates.head
    exact ⟨hmax, (hiff hmax).mp hstates⟩
  · exact fun ⟨hmax, hsteps⟩ => (hiff hmax).mpr hsteps

/-- A caller adds a thread, which exits. -/
def threadExits (c : Fin m) (name : Bytes) : List (Event m) :=
  addsThread c name ++ [.finish 0, .lock (.added 0), .exit 0]

theorem givesSlotsBack_threadExits : ∃ s : ThreadManager 1,
    run step (init 1 10) (threadExits 0 (bytes "worker")) = some s ∧
      (States step GivesSlotsBack (init 1 10) (threadExits 0 (bytes "worker")) ↔
        0 ≤ Int32.toInt 10 ∧
          Steps step KeepsSlots (init 1 10) (threadExits 0 (bytes "worker"))) := by
  have hrun : (run step (init 1 10) (threadExits 0 (bytes "worker"))).isSome := by decide
  have hs := (Option.some_get hrun).symm
  exact ⟨_, hs, givesSlotsBack_iff hs⟩

/-- With a limit of one, the slot is not given back: nothing runs, and `addThread` waits. -/
theorem threadExits_keeps_slot : ∃ s : ThreadManager 1,
    run step (init 1 1) (threadExits 0 (bytes "worker")) = some s ∧ ¬ s.GivesSlotsBack := by
  have hrun : (run step (init 1 1) (threadExits 0 (bytes "worker"))).map
      (fun s => decide s.GivesSlotsBack) = some false := by decide
  obtain ⟨s, hs, hslots⟩ := Option.map_eq_some_iff.mp hrun
  exact ⟨s, hs, of_decide_eq_false hslots⟩

end OpenAPT.ThreadManager
