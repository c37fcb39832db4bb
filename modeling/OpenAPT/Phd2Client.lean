import OpenAPT.Json
import OpenAPT.Lib.Delimited

/-! The reading side of the PHD2 client. Each completed `async_read_some` hands its bytes to
`json::parse` as if they were one message, and the next read begins with an empty buffer. -/
namespace OpenAPT.PHD2Client

open Delimited

/-- The size of `buffer_`. -/
def max_length : ℕ := 1024

/-- How an `async_read_some` completes. -/
inductive Completion
  | error
  | received (received_data : Bytes)

variable (parse : Bytes → Option Json)

/-- The messages that the handlers of `read` parse, in order. After an error no read follows; a
text that does not parse is only logged. -/
def read : List Completion → List Json
  | [] => []
  | .error :: _ => []
  | .received received_data :: completions => (parse received_data).toList ++ read completions

def newline : UInt8 := 10

/-- A JSON text on one line. A JSON text has no zero byte and no byte order mark. -/
structure Message where
  text : Bytes
  value : Json
  newline_free : newline ∉ text
  zero_free : (0 : UInt8) ∉ text
  mark_free : ¬ [0xEF, 0xBB, 0xBF] <+: text
  parsed : parse text = some value

variable {parse}

/-- What the server sends: each message ended by a newline. -/
def wire (ms : List (Message parse)) : Bytes := frames newline (ms.map (·.text))

/-- The results of `async_read_some` that make up a stream. -/
def Splits (stream : Bytes) (chunks : List Bytes) : Prop :=
  chunks.flatten = stream ∧ ∀ chunk ∈ chunks, chunk ≠ [] ∧ chunk.length ≤ max_length

variable (parse)

def handled (chunks : List Bytes) : List Json := read parse (chunks.map .received)

variable {parse}

/-- Any two splits give the same messages, and these are the ones that were sent. -/
def FragmentationIndependent (ms : List (Message parse)) : Prop :=
  ∀ chunks chunks', Splits (wire ms) chunks → Splits (wire ms) chunks' →
    handled parse chunks = handled parse chunks' ∧ handled parse chunks = ms.map (·.value)

def isBlank (b : UInt8) : Bool := b = 0x20 || b = 0x09 || b = 0x0A || b = 0x0D

def isDigit (b : UInt8) : Bool := 0x30 ≤ b && b ≤ 0x39

def digitValue (b : UInt8) : Json := .numberUnsigned (UInt64.ofNat (b.toNat - 0x30))

def digits (text : Bytes) : Bytes := text.filter isDigit

/-- The digit `b` with nothing but blanks around it. -/
def BareDigit (b : UInt8) (text : Bytes) : Prop :=
  digits text = [b] ∧ ∀ c ∈ text, isDigit c ∨ isBlank c

/-- What `json::parse` makes of single digits: blanks around a value are skipped, one byte is a
value only if it is a digit, and one digit is the only way to write a number below ten. -/
structure ParsesDigits (parse : Bytes → Option Json) : Prop where
  blank : ∀ text, (∀ c ∈ text, isBlank c) → parse text = none
  digit : ∀ text b, BareDigit b text → parse text = some (digitValue b)
  byte : ∀ b, parse [b] ≠ none → isDigit b
  bare : ∀ text b, isDigit b → (0 : UInt8) ∉ text → ¬ [0xEF, 0xBB, 0xBF] <+: text →
    parse text = some (digitValue b) → BareDigit b text

/-- Every message is a single digit, and no result of a read can hold two of them. -/
def LoneDigits (ms : List (Message parse)) : Prop :=
  (∀ m ∈ ms, ∃ b, BareDigit b m.text) ∧
    ∀ u a v b w, wire ms = u ++ a :: (v ++ b :: w) → isDigit a → isDigit b →
      max_length < (a :: (v ++ [b])).length

theorem wire_cons (m : Message parse) (ms : List (Message parse)) :
    wire (m :: ms) = m.text ++ newline :: wire ms := by
  rw [wire, List.map_cons, frames_cons, wire]

theorem handled_eq_filterMap (chunks : List Bytes) :
    handled parse chunks = chunks.filterMap parse := by
  induction chunks with
  | nil => rfl
  | cons chunk chunks ih =>
    rw [handled] at ih
    rw [handled, List.map_cons, read, ih, List.filterMap_cons]
    cases parse chunk <;> rfl

theorem handled_append (chunks chunks' : List Bytes) :
    handled parse (chunks ++ chunks') = handled parse chunks ++ handled parse chunks' := by
  simp only [handled_eq_filterMap, List.filterMap_append]

theorem digits_append (s t : Bytes) : digits (s ++ t) = digits s ++ digits t :=
  List.filter_append ..

theorem digits_cons {b : UInt8} (h : isDigit b) (text : Bytes) :
    digits (b :: text) = b :: digits text :=
  List.filter_cons_of_pos h

theorem length_digits_two {a b : UInt8} (ha : isDigit a) (hb : isDigit b) (u v w : Bytes) :
    (digits (u ++ a :: (v ++ b :: w))).length =
      (digits u).length + (2 + (digits v).length + (digits w).length) := by
  rw [digits_append, digits_cons ha, digits_append, digits_cons hb]
  simp only [List.length_append, List.length_cons]
  omega

theorem isDigit_of_mem_digits {b : UInt8} {text : Bytes} (h : b ∈ digits text) : isDigit b :=
  (List.mem_filter.mp h).2

theorem bareDigit_singleton {b : UInt8} (h : isDigit b) : BareDigit b [b] := by
  refine ⟨digits_cons h [], fun c hc => ?_⟩
  rw [List.mem_singleton.mp hc]
  exact Or.inl h

/-- The stream one byte at a time. -/
def bytewise (stream : Bytes) : List Bytes := stream.map fun b => [b]

theorem splits_bytewise (stream : Bytes) : Splits stream (bytewise stream) := by
  constructor
  · induction stream with
    | nil => rfl
    | cons b stream ih => exact congrArg (b :: ·) ih
  · intro chunk hchunk
    obtain ⟨b, -, rfl⟩ := List.mem_map.mp hchunk
    exact ⟨List.cons_ne_nil b [], Nat.le_add_left 1 1023⟩

theorem handled_bytewise (hparse : ParsesDigits parse) (stream : Bytes) :
    handled parse (bytewise stream) = (digits stream).map digitValue := by
  rw [handled_eq_filterMap]
  induction stream with
  | nil => rfl
  | cons b stream ih =>
    rw [bytewise] at ih
    rw [bytewise, List.map_cons, List.filterMap_cons, ih]
    by_cases hb : isDigit b
    · rw [hparse.digit [b] b (bareDigit_singleton hb), digits_cons hb]
      rfl
    · have hnone : parse [b] = none := not_not.mp fun h => hb (hparse.byte b h)
      rw [hnone, digits, digits, List.filter_cons_of_neg hb]

/-- A split whose chunks never hold two digits gives the digits of the stream. -/
theorem handled_of_sparse (hparse : ParsesDigits parse) {chunks : List Bytes}
    (hplain : ∀ c ∈ chunks.flatten, isDigit c ∨ isBlank c)
    (hsparse : ∀ chunk ∈ chunks, (digits chunk).length ≤ 1) :
    handled parse chunks = (digits chunks.flatten).map digitValue := by
  rw [handled_eq_filterMap]
  induction chunks with
  | nil => rfl
  | cons chunk chunks ih =>
    have hchunk (c : UInt8) (hc : c ∈ chunk) : isDigit c ∨ isBlank c :=
      hplain c (by rw [List.flatten_cons]; exact List.mem_append_left _ hc)
    have hrest := ih
      (fun c hc => hplain c (by rw [List.flatten_cons]; exact List.mem_append_right _ hc))
      (fun c hc => hsparse c (List.mem_cons_of_mem _ hc))
    have hone := hsparse chunk List.mem_cons_self
    rw [List.filterMap_cons, hrest, List.flatten_cons, digits_append, List.map_append]
    match hdigits : digits chunk with
    | [] =>
      have hblank (c : UInt8) (hc : c ∈ chunk) : isBlank c :=
        (hchunk c hc).resolve_left (List.filter_eq_nil_iff.mp hdigits c hc)
      rw [hparse.blank chunk hblank]
      rfl
    | [b] =>
      rw [hparse.digit chunk b ⟨hdigits, hchunk⟩]
      rfl
    | _ :: _ :: _ =>
      rw [hdigits] at hone
      simp at hone

/-- Two digits of a text, and what lies between them. -/
theorem exists_two_digits {text : Bytes} (h : 1 < (digits text).length) :
    ∃ u a v b w, text = u ++ a :: (v ++ b :: w) ∧ isDigit a ∧ isDigit b := by
  match hdigits : digits text with
  | [] | [_] =>
    rw [hdigits] at h
    simp at h
  | a :: b :: rest =>
    obtain ⟨u, rest', rfl, -, ha, hrest⟩ := List.filter_eq_cons_iff.mp hdigits
    obtain ⟨v, w, rfl, -, hb, -⟩ := List.filter_eq_cons_iff.mp hrest
    exact ⟨u, a, v, b, w, rfl, ha, hb⟩

/-- Messages of one digit: their values are the digits of the stream. -/
theorem values_eq_digits (hparse : ParsesDigits parse) {ms : List (Message parse)}
    (h : ∀ m ∈ ms, ∃ b, BareDigit b m.text) :
    ms.map (·.value) = (digits (wire ms)).map digitValue := by
  induction ms with
  | nil => rfl
  | cons m ms ih =>
    obtain ⟨b, hb⟩ := h m List.mem_cons_self
    have hvalue : m.value = digitValue b :=
      Option.some.inj (m.parsed.symm.trans (hparse.digit m.text b hb))
    have hnewline : digits [newline] = [] := rfl
    rw [wire_cons, List.map_cons, hvalue, ih fun m' hm' => h m' (List.mem_cons_of_mem _ hm'),
      ← List.singleton_append (x := newline), digits_append, digits_append, hb.1, hnewline]
    rfl

theorem wire_plain {ms : List (Message parse)} (h : ∀ m ∈ ms, ∃ b, BareDigit b m.text) :
    ∀ c ∈ wire ms, isDigit c ∨ isBlank c := by
  induction ms with
  | nil => exact fun c hc => nomatch hc
  | cons m ms ih =>
    intro c hc
    rw [wire_cons, List.mem_append, List.mem_cons] at hc
    rcases hc with hc | rfl | hc
    · obtain ⟨b, hb⟩ := h m List.mem_cons_self
      exact hb.2 c hc
    · exact Or.inr rfl
    · exact ih (fun m' hm' => h m' (List.mem_cons_of_mem _ hm')) c hc

/-- Of digits that are far enough apart a chunk holds at most one. -/
theorem length_digits_le {stream : Bytes} {chunks : List Bytes}
    (hapart : ∀ u a v b w, stream = u ++ a :: (v ++ b :: w) → isDigit a → isDigit b →
      max_length < (a :: (v ++ [b])).length)
    (hsplits : Splits stream chunks) {chunk : Bytes} (hchunk : chunk ∈ chunks) :
    (digits chunk).length ≤ 1 := by
  by_contra hlong
  obtain ⟨u, a, v, b, w, rfl, ha, hb⟩ := exists_two_digits (Nat.lt_of_not_le hlong)
  obtain ⟨before, after, rfl⟩ := List.append_of_mem hchunk
  have hstream : stream = (before.flatten ++ u) ++ a :: (v ++ b :: (w ++ after.flatten)) := by
    rw [← hsplits.1]
    simp
  have hfar := hapart _ a v b _ hstream ha hb
  have hle := (hsplits.2 _ hchunk).2
  simp only [List.length_append, List.length_cons, List.length_nil] at hfar hle
  omega

/-- The split that cuts everywhere but between two given bytes. -/
theorem splits_around {u v w : Bytes} {a b : UInt8}
    (h : (a :: (v ++ [b])).length ≤ max_length) :
    Splits (u ++ a :: (v ++ b :: w)) (bytewise u ++ (a :: (v ++ [b])) :: bytewise w) := by
  obtain ⟨hu, hu'⟩ := splits_bytewise u
  obtain ⟨hw, hw'⟩ := splits_bytewise w
  constructor
  · rw [List.flatten_append, List.flatten_cons, hu, hw]
    simp
  · intro chunk hchunk
    rw [List.mem_append, List.mem_cons] at hchunk
    rcases hchunk with hchunk | rfl | hchunk
    · exact hu' chunk hchunk
    · exact ⟨List.cons_ne_nil a _, h⟩
    · exact hw' chunk hchunk

theorem loneDigits_of_independent (hparse : ParsesDigits parse) {ms : List (Message parse)}
    (h : FragmentationIndependent ms) : LoneDigits ms := by
  have hvalues := (h _ _ (splits_bytewise _) (splits_bytewise _)).2
  rw [handled_bytewise hparse] at hvalues
  constructor
  · intro m hm
    have hmem : m.value ∈ (digits (wire ms)).map digitValue := by
      rw [hvalues]
      exact List.mem_map_of_mem hm
    obtain ⟨b, hb, hvalue⟩ := List.mem_map.mp hmem
    refine ⟨b, hparse.bare m.text b (isDigit_of_mem_digits hb) m.zero_free m.mark_free ?_⟩
    rw [m.parsed, hvalue]
  · intro u a v b w hwire ha hb
    by_contra hnear
    have hsplits := splits_around (u := u) (w := w) (Nat.le_of_not_lt hnear)
    rw [← hwire] at hsplits
    -- the chunk with the two digits gives at most one value
    have hchunk := (h _ _ hsplits hsplits).2
    have hlength := congrArg List.length (hchunk.trans hvalues.symm)
    have hone : (parse (a :: (v ++ [b]))).toList.length ≤ 1 := by
      cases parse (a :: (v ++ [b])) <;> simp
    have hcons : handled parse ((a :: (v ++ [b])) :: bytewise w) =
        (parse (a :: (v ++ [b]))).toList ++ handled parse (bytewise w) := rfl
    have htwo := length_digits_two ha hb u v w
    rw [← hwire] at htwo
    rw [handled_append, hcons, handled_bytewise hparse, handled_bytewise hparse] at hlength
    simp only [List.length_append, List.length_map] at hlength
    omega

/-- What the client parses is independent of the fragmentation exactly when the server sends
nothing but single digits, so far apart that a read never returns two of them. -/
theorem fragmentation_independent_iff (parse : Bytes → Option Json) (hparse : ParsesDigits parse)
    (ms : List (Message parse)) : FragmentationIndependent ms ↔ LoneDigits ms := by
  constructor
  · exact loneDigits_of_independent hparse
  · intro h
    have hall (chunks : List Bytes) (hsplits : Splits (wire ms) chunks) :
        handled parse chunks = ms.map (·.value) := by
      have hplain := wire_plain h.1
      rw [← hsplits.1] at hplain
      rw [handled_of_sparse hparse hplain fun _ => length_digits_le h.2 hsplits, hsplits.1,
        values_eq_digits hparse h.1]
    intro chunks chunks' hsplits hsplits'
    rw [hall chunks hsplits, hall chunks' hsplits']
    exact ⟨rfl, rfl⟩

/-- A parser that knows the single digits. -/
def parseDigit (text : Bytes) : Option Json :=
  match digits text with
  | [b] => if text.all fun c => isDigit c || isBlank c then some (digitValue b) else none
  | _ => none

theorem parseDigit_eq_some {text : Bytes} {v : Json} :
    parseDigit text = some v ↔ ∃ b, BareDigit b text ∧ digitValue b = v := by
  unfold parseDigit BareDigit
  split
  next b hdigits =>
    simp only [hdigits, List.all_eq_true, Bool.or_eq_true, Option.ite_none_right_eq_some,
      Option.some.injEq, List.cons.injEq, and_true]
    constructor
    · intro ⟨hplain, hv⟩
      exact ⟨b, ⟨rfl, hplain⟩, hv⟩
    · intro ⟨b', ⟨hb, hplain⟩, hv⟩
      exact ⟨hplain, hb ▸ hv⟩
  next hdigits =>
    constructor
    · intro h
      cases h
    · rintro ⟨b, ⟨hb, -⟩, -⟩
      exact absurd hb (hdigits b)

theorem digitValue_inj {a b : UInt8} (ha : isDigit a) (hb : isDigit b)
    (h : digitValue a = digitValue b) : a = b := by
  simp only [isDigit, Bool.and_eq_true, decide_eq_true_eq, UInt8.le_iff_toNat_le] at ha hb
  have hvalue := congrArg UInt64.toNat (Json.numberUnsigned.inj h)
  rw [UInt64.toNat_ofNat', UInt64.toNat_ofNat'] at hvalue
  have := a.toNat_lt
  have := b.toNat_lt
  apply UInt8.toNat_inj.mp
  simp only [UInt8.reduceToNat] at ha hb
  omega

theorem parsesDigits_parseDigit : ParsesDigits parseDigit where
  blank text hblank := by
    have hnone : digits text = [] := List.filter_eq_nil_iff.mpr fun c hc hdigit => by
      have hc := hblank c hc
      simp only [isBlank, Bool.or_eq_true, decide_eq_true_eq] at hc
      rcases hc with ((rfl | rfl) | rfl) | rfl <;> cases hdigit
    rw [parseDigit, hnone]
  digit text b hb := parseDigit_eq_some.mpr ⟨b, hb, rfl⟩
  byte b h := by
    obtain ⟨v, hv⟩ := Option.ne_none_iff_exists'.mp h
    obtain ⟨c, hc, -⟩ := parseDigit_eq_some.mp hv
    have hmem : c ∈ digits [b] := hc.1 ▸ List.mem_singleton_self c
    rw [← List.mem_singleton.mp (List.mem_filter.mp hmem).1]
    exact isDigit_of_mem_digits hmem
  bare text b hb _ _ h := by
    obtain ⟨c, hc, hvalue⟩ := parseDigit_eq_some.mp h
    have hdigit : isDigit c := isDigit_of_mem_digits (hc.1 ▸ List.mem_singleton_self c)
    exact digitValue_inj hdigit hb hvalue ▸ hc

def one : Message parseDigit :=
  ⟨bytes "1", .numberUnsigned 1, by decide, by decide, by decide, rfl⟩

/-- A lone digit survives: whatever splits off is blank. -/
theorem fragmentation_independent_one : FragmentationIndependent [one] := by
  refine (fragmentation_independent_iff parseDigit parsesDigits_parseDigit [one]).mpr ⟨?_, ?_⟩
  · intro m hm
    rw [List.mem_singleton.mp hm]
    refine ⟨0x31, rfl, fun c hc => ?_⟩
    rw [List.mem_singleton.mp hc]
    exact Or.inl rfl
  · intro u a v b w hwire ha hb
    have htwo := length_digits_two ha hb u v w
    have hone : (digits (wire [one])).length = 1 := rfl
    rw [← hwire, hone] at htwo
    omega

/-- A parser that knows the one message of the example, with its newline or without. -/
def parseVersion (text : Bytes) : Option Json :=
  if text = bytes "\x7b\"Event\":\"Version\"\x7d" ∨ text = bytes "\x7b\"Event\":\"Version\"\x7d\n" then
    some (.object [(bytes "Event", .string (bytes "Version"))])
  else none

def version : Message parseVersion :=
  ⟨bytes "\x7b\"Event\":\"Version\"\x7d", .object [(bytes "Event", .string (bytes "Version"))],
    by decide, by decide, by decide, rfl⟩

/-- An event that arrives in two halves is not parsed. -/
theorem version_depends_on_fragmentation : ¬ FragmentationIndependent [version] := by
  intro h
  have hsplit : Splits (wire [version]) [bytes "\x7b\"Event\":", bytes "\"Version\"\x7d\n"] :=
    ⟨rfl, by decide⟩
  have hhandled := (h _ _ hsplit hsplit).2
  have hnone : handled parseVersion [bytes "\x7b\"Event\":", bytes "\"Version\"\x7d\n"] = [] := rfl
  rw [hnone] at hhandled
  cases hhandled

end OpenAPT.PHD2Client
