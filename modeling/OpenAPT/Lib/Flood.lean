import Mathlib.Combinatorics.SimpleGraph.Connectivity.Connected
import Mathlib.Data.Finset.Card
import Mathlib.Tactic.Common

/-! Flood fill over the vertices of a graph that are still white: one vertex of the queue after the
other takes its white neighbours out of the set and queues them. A flood that has run dry has taken
a connected component, and floods one after the other take all of them. -/
namespace Flood

variable {α : Type*} [DecidableEq α]

/-- Moves `q` from the white vertices to the end of the queue, if it is white. -/
def take (s : Finset α × List α) (q : α) : Finset α × List α :=
  if q ∈ s.1 then (s.1.erase q, s.2 ++ [q]) else s

/-- What a flood has done: the white vertices, the queue, and the vertices taken off it. -/
structure State (α : Type*) where
  white : Finset α
  queue : List α
  done : List α

/-- One vertex comes off the queue and takes the white ones among its neighbours. -/
def next (p : α) (qs rest : List α) (s : State α) : State α where
  white := (qs.foldl take (s.white, rest)).1
  queue := (qs.foldl take (s.white, rest)).2
  done := s.done ++ [p]

theorem mem_take_white {s : Finset α × List α} {q r : α} :
    r ∈ (take s q).1 ↔ r ∈ s.1 ∧ r ≠ q := by
  unfold take
  split
  · rw [Finset.mem_erase]
    exact and_comm
  next hq =>
    refine ⟨fun hr => ⟨hr, ?_⟩, And.left⟩
    rintro rfl
    exact hq hr

theorem mem_take_queue {s : Finset α × List α} {q r : α} :
    r ∈ (take s q).2 ↔ r ∈ s.2 ∨ r ∈ s.1 ∧ r = q := by
  unfold take
  split
  next hq =>
    rw [List.mem_append, List.mem_singleton]
    refine or_congr_right ⟨?_, And.right⟩
    rintro rfl
    exact ⟨hq, rfl⟩
  next hq =>
    refine ⟨Or.inl, fun h => h.elim id ?_⟩
    rintro ⟨hr, rfl⟩
    exact absurd hr hq

theorem card_take (s : Finset α × List α) (q : α) :
    (take s q).1.card + (take s q).2.length = s.1.card + s.2.length := by
  unfold take
  split
  next hq =>
    have hcard := Finset.card_erase_add_one hq
    simp only [List.length_append, List.length_singleton]
    omega
  · rfl

variable {s : Finset α × List α} {q r : α} {qs : List α}

theorem mem_foldl_take_white : r ∈ (qs.foldl take s).1 ↔ r ∈ s.1 ∧ r ∉ qs := by
  induction qs generalizing s with
  | nil => simp
  | cons q qs ih => rw [List.foldl_cons, ih, mem_take_white, List.mem_cons, not_or, and_assoc]

theorem mem_foldl_take_queue :
    r ∈ (qs.foldl take s).2 ↔ r ∈ s.2 ∨ r ∈ s.1 ∧ r ∈ qs := by
  induction qs generalizing s with
  | nil => simp
  | cons q qs ih =>
    rw [List.foldl_cons, ih, mem_take_queue, mem_take_white, List.mem_cons]
    by_cases hr : r = q <;> simp [hr]

theorem card_foldl_take (s : Finset α × List α) (qs : List α) :
    (qs.foldl take s).1.card + (qs.foldl take s).2.length = s.1.card + s.2.length := by
  induction qs generalizing s with
  | nil => rfl
  | cons q qs ih => rw [List.foldl_cons, ih, card_take]

/-- A queue without duplicates and white vertices stays so. -/
theorem nodup_foldl_take {done : List α} (h : (done ++ s.2).Nodup)
    (hwhite : ∀ r ∈ done ++ s.2, r ∉ s.1) : (done ++ (qs.foldl take s).2).Nodup := by
  induction qs generalizing s with
  | nil => exact h
  | cons q qs ih =>
    rw [List.foldl_cons]
    unfold take
    split
    next hq =>
      apply ih
      · rw [← List.append_assoc, List.nodup_append]
        refine ⟨h, List.nodup_singleton q, fun a ha b hb => ?_⟩
        rintro rfl
        rw [List.mem_singleton] at hb
        exact hwhite a ha (hb ▸ hq)
      · intro r hr
        rw [← List.append_assoc, List.mem_append, List.mem_singleton] at hr
        rw [Finset.mem_erase, not_and]
        exact fun hne hmem => hr.elim (fun hr => hwhite r hr hmem) hne
    next => exact ih h hwhite

theorem mem_next_white {s : State α} {p r : α} {rest qs : List α} :
    r ∈ (next p qs rest s).white ↔ r ∈ s.white ∧ r ∉ qs :=
  mem_foldl_take_white

theorem next_white_subset (s : State α) (p : α) (rest qs : List α) :
    (next p qs rest s).white ⊆ s.white :=
  fun _ h => (mem_next_white.mp h).1

/-- What leaves the white vertices enters the queue. -/
theorem card_next (s : State α) (p : α) (rest qs : List α) :
    (next p qs rest s).white.card + (next p qs rest s).queue.length =
      s.white.card + rest.length :=
  card_foldl_take (s.white, rest) qs

variable (G : SimpleGraph α) (S : Set α)

omit [DecidableEq α] in
/-- Two vertices of `S` in one component of the graph on `S`. -/
def Joined (p q : α) : Prop :=
  ∃ (hp : p ∈ S) (hq : q ∈ S), (G.induce S).Reachable ⟨p, hp⟩ ⟨q, hq⟩

/-- A set of vertices that no edge leaves inside `S`. -/
def Closed (W : Finset α) : Prop := ∀ p ∈ W, ∀ q ∈ S, G.Adj p q → q ∈ W

/-- What a flood that began at `seed` among the white vertices `W` keeps. -/
structure Flooding (W : Finset α) (seed : α) (s : State α) : Prop where
  seed_mem : seed ∈ s.done ++ s.queue
  nodup : (s.done ++ s.queue).Nodup
  disjoint : ∀ p ∈ s.done ++ s.queue, p ∉ s.white
  split : ∀ p, p ∈ W ↔ p ∈ s.white ∨ p ∈ s.done ++ s.queue
  joined : ∀ p ∈ s.done ++ s.queue, Joined G S seed p
  taken : ∀ p ∈ s.done, ∀ q ∈ s.white, ¬ G.Adj p q

variable {G S} {W : Finset α} {seed : α}

omit [DecidableEq α] in
theorem joined_refl {p : α} (h : p ∈ S) : Joined G S p p := ⟨h, h, SimpleGraph.Reachable.refl _⟩

omit [DecidableEq α] in
theorem Joined.step {p q r : α} (h : Joined G S p q) (hr : r ∈ S) (hadj : G.Adj q r) :
    Joined G S p r := by
  obtain ⟨hp, hq, hreach⟩ := h
  have hstep : (G.induce S).Adj ⟨q, hq⟩ ⟨r, hr⟩ := hadj
  exact ⟨hp, hr, hreach.trans hstep.reachable⟩

/-- Where a flood begins. -/
def start (W : Finset α) (seed : α) : State α := ⟨W.erase seed, [seed], []⟩

theorem flooding_start (hW : ∀ p ∈ W, p ∈ S) (hseed : seed ∈ W) :
    Flooding G S W seed (start W seed) where
  seed_mem := List.mem_singleton_self seed
  nodup := List.nodup_singleton seed
  disjoint p hp := by
    rw [List.mem_singleton.mp hp]
    exact Finset.notMem_erase seed W
  split p := by
    rw [start, Finset.mem_erase, List.nil_append, List.mem_singleton]
    refine ⟨fun hp => (em (p = seed)).elim Or.inr fun hne => Or.inl ⟨hne, hp⟩, ?_⟩
    rintro (⟨-, hp⟩ | rfl)
    · exact hp
    · exact hseed
  joined p hp := by
    rw [List.mem_singleton.mp hp]
    exact joined_refl (hW seed hseed)
  taken p hp := nomatch hp

/-- The step lemma: `qs` are the neighbours of `p`. -/
theorem Flooding.next {s : State α} {p : α} {rest qs : List α} (h : Flooding G S W seed s)
    (hW : ∀ p ∈ W, p ∈ S) (hqueue : s.queue = p :: rest) (hqs : ∀ q, q ∈ qs ↔ G.Adj p q) :
    Flooding G S W seed (next p qs rest s) := by
  have hmem (r : α) : r ∈ (Flood.next p qs rest s).done ++ (Flood.next p qs rest s).queue ↔
      r ∈ s.done ++ s.queue ∨ r ∈ s.white ∧ r ∈ qs := by
    simp only [Flood.next, List.mem_append, mem_foldl_take_queue, hqueue, List.mem_cons,
      List.not_mem_nil, or_false, or_assoc]
  have hp : p ∈ s.done ++ s.queue := by
    rw [hqueue]
    exact List.mem_append_right _ List.mem_cons_self
  constructor
  · exact (hmem seed).mpr (Or.inl h.seed_mem)
  · have hassoc : s.done ++ s.queue = (s.done ++ [p]) ++ rest := by rw [hqueue]; simp
    have hnodup := h.nodup
    have hdisjoint := h.disjoint
    rw [hassoc] at hnodup hdisjoint
    exact nodup_foldl_take (s := (s.white, rest)) hnodup hdisjoint
  · intro r hr hrw
    obtain ⟨hrw, hrqs⟩ := mem_next_white.mp hrw
    rcases (hmem r).mp hr with hr | ⟨-, hr⟩
    · exact h.disjoint r hr hrw
    · exact hrqs hr
  · intro r
    rw [h.split r, hmem, mem_next_white]
    by_cases hr : r ∈ qs <;> simp [hr, or_comm]
  · intro r hr
    rcases (hmem r).mp hr with hr | ⟨hrw, hr⟩
    · exact h.joined r hr
    · have hrS : r ∈ S := hW r ((h.split r).mpr (Or.inl hrw))
      exact (h.joined p hp).step hrS ((hqs r).mp hr)
  · intro r hr q hq hadj
    obtain ⟨hqw, hqqs⟩ := mem_next_white.mp hq
    rw [Flood.next, List.mem_append, List.mem_singleton] at hr
    rcases hr with hr | rfl
    · exact h.taken r hr q hqw hadj
    · exact hqqs ((hqs q).mpr hadj)

omit [DecidableEq α] in
/-- A set with the seed that no edge leaves has everything joined to the seed. -/
theorem mem_of_joined {p q : α} (C : Set α) (hp : p ∈ C)
    (hclosed : ∀ a ∈ C, ∀ b ∈ S, G.Adj a b → b ∈ C) (h : Joined G S p q) : q ∈ C := by
  obtain ⟨hpS, hqS, hreach⟩ := h
  rw [SimpleGraph.reachable_iff_reflTransGen] at hreach
  have hall (r : S) (hr : Relation.ReflTransGen (G.induce S).Adj ⟨p, hpS⟩ r) : r.1 ∈ C := by
    induction hr with
    | refl => exact hp
    | tail _ hadj ih => exact hclosed _ ih _ (Subtype.property _) hadj
  exact hall ⟨q, hqS⟩ hreach

omit [DecidableEq α] in
/-- A flood with an empty queue has taken what is joined to its seed. -/
theorem Flooding.mem_done {s : State α} (h : Flooding G S W seed s) (hclosed : Closed G S W)
    (hempty : s.queue = []) (p : α) : p ∈ s.done ↔ Joined G S seed p := by
  have hdone : s.done ++ s.queue = s.done := by rw [hempty, List.append_nil]
  have hsplit := h.split
  have hseed := h.seed_mem
  have hjoined := h.joined p
  rw [hdone] at hseed hjoined
  simp only [hdone] at hsplit
  constructor
  · exact hjoined
  · refine mem_of_joined {r | r ∈ s.done} hseed fun a ha b hb hadj => ?_
    have hbW : b ∈ W := hclosed a ((hsplit a).mpr (Or.inr ha)) b hb hadj
    exact ((hsplit b).mp hbW).resolve_left fun hwhite => h.taken a ha b hwhite hadj

variable (G S)

/-- The clusters `L` are components of the graph on `S`, each taken once, and `W` is what is left.
-/
structure Clusters (L : List (List α)) (W : Finset α) : Prop where
  nodup : L.flatten.Nodup
  component : ∀ C ∈ L, ∃ seed ∈ S, ∀ p, p ∈ C ↔ Joined G S seed p
  rest : ∀ p, p ∈ W ↔ p ∈ S ∧ p ∉ L.flatten

variable {G S} {L : List (List α)}

omit [DecidableEq α] in
theorem Clusters.mem_left {p : α} (h : Clusters G S L W) (hp : p ∈ W) : p ∈ S :=
  ((h.rest p).mp hp).1

omit [DecidableEq α] in
/-- No edge leads from the rest into a cluster. -/
theorem Clusters.closed (h : Clusters G S L W) : Closed G S W := by
  intro p hp q hq hadj
  obtain ⟨hpS, hpL⟩ := (h.rest p).mp hp
  refine (h.rest q).mpr ⟨hq, fun hqL => hpL ?_⟩
  obtain ⟨C, hC, hqC⟩ := List.mem_flatten.mp hqL
  obtain ⟨seed, -, hcomponent⟩ := h.component C hC
  exact List.mem_flatten.mpr
    ⟨C, hC, (hcomponent p).mpr (((hcomponent q).mp hqC).step hpS hadj.symm)⟩

omit [DecidableEq α] in
/-- A flood among the rest adds a cluster. -/
theorem Clusters.append {s : State α} (h : Clusters G S L W) (hs : Flooding G S W seed s)
    (hempty : s.queue = []) : Clusters G S (L ++ [s.done]) s.white := by
  have hdone : s.done ++ s.queue = s.done := by rw [hempty, List.append_nil]
  have hnodup := hs.nodup
  have hsplit := hs.split
  have hdisjoint := hs.disjoint
  rw [hdone] at hnodup hdisjoint
  simp only [hdone] at hsplit
  have hseed : seed ∈ S := by
    obtain ⟨hmem, -⟩ := hs.joined seed hs.seed_mem
    exact hmem
  constructor
  · rw [List.flatten_append, List.flatten_singleton, List.nodup_append]
    refine ⟨h.nodup, hnodup, fun a ha b hb => ?_⟩
    rintro rfl
    exact ((h.rest a).mp ((hsplit a).mpr (Or.inr hb))).2 ha
  · intro C hC
    rw [List.mem_append, List.mem_singleton] at hC
    rcases hC with hC | rfl
    · exact h.component C hC
    · exact ⟨seed, hseed, hs.mem_done h.closed hempty⟩
  · intro p
    rw [List.flatten_append, List.flatten_singleton, List.mem_append, not_or, ← and_assoc,
      ← h.rest p, hsplit p]
    refine ⟨fun hp => ⟨Or.inl hp, fun hd => hdisjoint p hd hp⟩, ?_⟩
    exact fun hp => hp.1.resolve_right hp.2

omit [DecidableEq α] in
/-- Different places of a list whose members have no element in common. -/
theorem eq_of_mem_getElem (h : L.flatten.Nodup) {i j : Fin L.length} {p : α} (hi : p ∈ L[i])
    (hj : p ∈ L[j]) : i = j := by
  have hpairwise := (List.nodup_flatten.mp h).2
  by_contra hne
  rcases Fin.lt_or_lt_of_ne hne with hlt | hlt
  · exact List.pairwise_iff_getElem.mp hpairwise i j i.2 j.2 hlt hi hj
  · exact List.pairwise_iff_getElem.mp hpairwise j i j.2 i.2 hlt hj hi

omit [DecidableEq α] in
/-- When nothing is left, every vertex is in exactly one cluster. -/
theorem Clusters.existsUnique (h : Clusters G S L ∅) {p : α} (hp : p ∈ S) :
    ∃! i : Fin L.length, p ∈ L[i] := by
  have hmem : p ∈ L.flatten := by
    by_contra hnot
    exact Finset.notMem_empty p ((h.rest p).mpr ⟨hp, hnot⟩)
  obtain ⟨C, hC, hpC⟩ := List.mem_flatten.mp hmem
  obtain ⟨i, hi, rfl⟩ := List.mem_iff_getElem.mp hC
  exact ⟨⟨i, hi⟩, hpC, fun j hj => eq_of_mem_getElem h.nodup hj hpC⟩

omit [DecidableEq α] in
/-- When nothing is left, the clusters correspond to the components of the graph on `S`. -/
theorem Clusters.exists_equiv (h : Clusters G S L ∅) :
    ∃ e : Fin L.length ≃ (G.induce S).ConnectedComponent, ∀ i p,
      p ∈ L[i] ↔ ∃ hp : p ∈ S, (G.induce S).connectedComponentMk ⟨p, hp⟩ = e i := by
  have hcomponent (i : Fin L.length) := h.component L[i] (List.getElem_mem _)
  choose seed hseed hmem using hcomponent
  let f (i : Fin L.length) := (G.induce S).connectedComponentMk ⟨seed i, hseed i⟩
  have hf (i : Fin L.length) (p : α) :
      p ∈ L[i] ↔ ∃ hp : p ∈ S, (G.induce S).connectedComponentMk ⟨p, hp⟩ = f i := by
    rw [hmem i p]
    constructor
    · rintro ⟨hi, hp, hreach⟩
      exact ⟨hp, SimpleGraph.ConnectedComponent.sound hreach.symm⟩
    · rintro ⟨hp, hsame⟩
      exact ⟨hseed i, hp, (SimpleGraph.ConnectedComponent.exact hsame).symm⟩
  have hseed_mem (i : Fin L.length) : seed i ∈ L[i] := (hf i _).mpr ⟨hseed i, rfl⟩
  have hbijective : Function.Bijective f := by
    constructor
    · intro i j hij
      have hj : seed i ∈ L[j] := (hf j _).mpr ⟨hseed i, hij⟩
      exact eq_of_mem_getElem h.nodup (hseed_mem i) hj
    · intro c
      induction c using SimpleGraph.ConnectedComponent.ind with
      | _ v =>
        obtain ⟨i, hi, -⟩ := h.existsUnique v.2
        obtain ⟨hp, hsame⟩ := (hf i v.1).mp hi
        exact ⟨i, hsame.symm⟩
  exact ⟨Equiv.ofBijective f hbijective, hf⟩

end Flood
