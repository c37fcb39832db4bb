import OpenAPT.Json
import OpenAPT.Lib.Delimited

/-! The receiving side of the TCP client. What the peer sends reaches `Receive` in segments, and
each call reads into a buffer of its own. -/
namespace OpenAPT.TcpClient

open Delimited

variable (parse : Bytes → Option Json)

def newline : UInt8 := 10

/-- One call of `Receive` on the segments that are still unread: the response, if it returns true,
and the segments left. `arrived` tells whether the first bytes are there when the call asks for
`available()`; `read_until` waits for the rest. -/
def receive (socket_ : List Bytes) (arrived : Bool) : Option Json × List Bytes :=
  if arrived && !socket_.flatten.isEmpty then
    match readUntil newline [] socket_ with
    -- the peer has closed the connection before a newline
    | none => (none, [])
    | some (receive_buffer, rest) =>
      match parse (line newline receive_buffer) with
      | none => (none, rest)
      -- the debug message dumps the response
      | some response => (if response.dumpable then some response else none, rest)
  else (none, socket_)

/-- The responses of the successful calls, one after the other. -/
def receiveAll : List Bytes → List Bool → List Json
  | _, [] => []
  | socket_, arrived :: calls =>
    (receive parse socket_ arrived).1.toList ++
      receiveAll (receive parse socket_ arrived).2 calls

/-- A JSON text on one line. -/
structure Message where
  text : Bytes
  value : Json
  newline_free : newline ∉ text
  parsed : parse text = some value
  dumpable : value.dumpable = true

variable {parse}

/-- What the peer sends: each message ended by a newline. -/
def wire (ms : List (Message parse)) : Bytes := frames newline (ms.map (·.text))

variable (parse)

/-- Whenever `Receive` is called, the responses are the first messages in order, and they are all of
them once it has been called as often with bytes there. -/
def Lossless (socket_ : List Bytes) (values : List Json) : Prop :=
  ∀ calls, receiveAll parse socket_ calls <+: values ∧
    (values.length ≤ calls.count true → receiveAll parse socket_ calls = values)

/-- Every segment that holds a newline ends one message only, and the next one parses to the same
value without the bytes that the segment has of it. -/
def KeepsMessages : List Bytes → Prop
  | [] => True
  | seg :: segs =>
    (∀ head extra, seg = head ++ newline :: extra → newline ∉ extra ∧
      parse (line newline (extra ++ segs.flatten)) = parse (line newline segs.flatten)) ∧
    KeepsMessages segs

variable {parse}

theorem wire_cons (m : Message parse) (ms : List (Message parse)) :
    wire (m :: ms) = m.text ++ newline :: wire ms := by
  rw [wire, List.map_cons, frames_cons, wire]

theorem count_wire (ms : List (Message parse)) : (wire ms).count newline = ms.length := by
  rw [wire, count_frames, List.length_map]
  intro t ht
  obtain ⟨m, -, rfl⟩ := List.mem_map.mp ht
  exact m.newline_free

theorem receive_of_not_arrived (socket_ : List Bytes) :
    receive parse socket_ false = (none, socket_) := rfl

theorem receive_of_empty {socket_ : List Bytes} (h : socket_.flatten = []) (arrived : Bool) :
    receive parse socket_ arrived = (none, socket_) := by
  rw [receive, h, List.isEmpty_nil, Bool.not_true, Bool.and_false, if_neg Bool.false_ne_true]

/-- The response to one line. -/
def response? (parse : Bytes → Option Json) (text : Bytes) : Option Json :=
  (parse text).bind fun response => if response.dumpable then some response else none

theorem receive_cut {socket_ : List Bytes} (c : Cut newline socket_) :
    receive parse socket_ true = (response? parse c.frame, c.after) := by
  obtain ⟨buf, hread, hline⟩ := readUntil_cut c
  have hne : socket_.flatten.isEmpty = false := by
    rw [c.flatten_eq]
    simp
  rw [receive, hne, Bool.not_false, Bool.and_true, if_pos rfl, hread]
  simp only [hline, response?]
  cases parse c.frame <;> rfl

theorem response?_text (m : Message parse) : response? parse m.text = some m.value := by
  rw [response?, m.parsed, Option.bind_some, if_pos m.dumpable]

theorem parse_of_response? {text : Bytes} {v : Json} (h : response? parse text = some v) :
    parse text = some v := by
  obtain ⟨w, hw, hv⟩ := Option.bind_eq_some_iff.mp h
  split at hv
  · rw [hw, hv]
  · cases hv

theorem keepsMessages_of_free {socket_ : List Bytes} (h : newline ∉ socket_.flatten) :
    KeepsMessages parse socket_ := by
  induction socket_ with
  | nil => trivial
  | cons seg segs ih =>
    rw [List.flatten_cons, List.mem_append, not_or] at h
    refine ⟨fun head extra hseg => ?_, ih h.2⟩
    exact absurd (hseg ▸ List.mem_append_right _ List.mem_cons_self) h.1

/-- Of the segments that a read takes, the condition concerns the one with the newline. -/
theorem keepsMessages_cut {socket_ : List Bytes} (c : Cut newline socket_) :
    KeepsMessages parse socket_ ↔ (newline ∉ c.extra ∧
      parse (line newline (c.extra ++ c.after.flatten)) = parse (line newline c.after.flatten)) ∧
      KeepsMessages parse c.after := by
  obtain ⟨before, head, extra, after, rfl, hbefore, hhead⟩ := c
  induction before with
  | nil =>
    refine and_congr_left fun _ => ⟨fun h => h head extra rfl, ?_⟩
    rintro ⟨hextra, hparse⟩ head' extra' hseg
    obtain ⟨-, -, rfl⟩ := (List.append_cons_inj_of_notMem hhead hextra).mp hseg
    exact ⟨hextra, hparse⟩
  | cons seg before ih =>
    rw [List.flatten_cons, List.mem_append, not_or] at hbefore
    refine (and_iff_right ?_).trans (ih hbefore.2)
    intro head' extra' hseg
    exact absurd (hseg ▸ List.mem_append_right _ List.mem_cons_self) hbefore.1

/-- A cut of the messages finds the first of them. -/
theorem cut_wire {socket_ : List Bytes} (c : Cut newline socket_) {m : Message parse}
    {ms : List (Message parse)} (h : socket_.flatten = wire (m :: ms)) :
    c.frame = m.text ∧ c.extra ++ c.after.flatten = wire ms := by
  rw [c.flatten_eq, wire_cons] at h
  exact append_cons_inj c.frame_free m.newline_free h

theorem exists_cut_of_wire {socket_ : List Bytes} {m : Message parse} {ms : List (Message parse)}
    (h : socket_.flatten = wire (m :: ms)) : Nonempty (Cut newline socket_) := by
  refine nonempty_cut ?_
  rw [h, wire_cons]
  exact List.mem_append_right _ List.mem_cons_self

/-- The beginning of the messages that a read has taken too much lies in the first of them. -/
theorem wire_split {extra rest : Bytes} {m : Message parse} {ms : List (Message parse)}
    (hextra : newline ∉ extra) (h : extra ++ rest = wire (m :: ms)) :
    ∃ text, m.text = extra ++ text ∧ newline ∉ text ∧ rest = text ++ newline :: wire ms := by
  rw [wire_cons] at h
  rcases List.append_eq_append_iff.mp h with ⟨text, htext, hrest⟩ | ⟨tail, htail, hrest⟩
  · refine ⟨text, htext, fun hmem => m.newline_free ?_, hrest⟩
    rw [htext]
    exact List.mem_append_right _ hmem
  · cases tail with
    | nil =>
      rw [List.append_nil] at htail
      exact ⟨[], by rw [htail, List.append_nil], List.not_mem_nil, hrest.symm⟩
    | cons a tail =>
      -- the newline would be one of the bytes taken
      rw [List.cons_append, List.cons.injEq] at hrest
      refine absurd ?_ hextra
      rw [htail, hrest.1]
      exact List.mem_append_right _ List.mem_cons_self

/-- If the next line parses to the same value without the bytes taken, what is left is again a wire
of messages with the same values. -/
theorem exists_wire {extra rest : Bytes} {ms : List (Message parse)} (hextra : newline ∉ extra)
    (h : extra ++ rest = wire ms)
    (hparse : parse (line newline (extra ++ rest)) = parse (line newline rest)) :
    ∃ ms' : List (Message parse), rest = wire ms' ∧ ms'.map (·.value) = ms.map (·.value) := by
  cases ms with
  | nil =>
    obtain ⟨-, rfl⟩ := List.append_eq_nil_iff.mp h
    exact ⟨[], rfl, rfl⟩
  | cons m ms =>
    obtain ⟨text, htext, hfree, rfl⟩ := wire_split hextra h
    have hvalue : parse text = some m.value := by
      rw [h, wire_cons, line_append_cons m.newline_free, line_append_cons hfree] at hparse
      rw [← hparse, m.parsed]
    refine ⟨⟨text, m.value, hfree, hvalue, m.dumpable⟩ :: ms, ?_, rfl⟩
    rw [wire_cons]

/-- A client that loses nothing to its buffers returns one message a call. -/
theorem receiveAll_eq_take {socket_ : List Bytes} {ms : List (Message parse)}
    (hkeeps : KeepsMessages parse socket_) (h : socket_.flatten = wire ms) (calls : List Bool) :
    receiveAll parse socket_ calls = (ms.map (·.value)).take (calls.count true) := by
  induction calls generalizing socket_ ms with
  | nil => rfl
  | cons arrived calls ih =>
    cases arrived with
    | false =>
      rw [receiveAll, receive_of_not_arrived, Option.toList_none, List.nil_append, ih hkeeps h]
      simp
    | true =>
      rw [List.count_cons_self]
      cases ms with
      | nil =>
        rw [receiveAll, receive_of_empty h, Option.toList_none, List.nil_append, ih hkeeps h]
        simp
      | cons m ms =>
        obtain ⟨c⟩ := exists_cut_of_wire h
        obtain ⟨hframe, hrest⟩ := cut_wire c h
        obtain ⟨⟨hextra, hparse⟩, hafter⟩ := (keepsMessages_cut c).mp hkeeps
        obtain ⟨ms', hwire, hvalues⟩ := exists_wire hextra hrest hparse
        rw [receiveAll, receive_cut c, hframe, response?_text, ih hafter hwire, hvalues]
        rfl

variable (parse)

/-- A successful call uses up a newline. -/
theorem length_receive_le (socket_ : List Bytes) (arrived : Bool) :
    (receive parse socket_ arrived).1.toList.length +
      (receive parse socket_ arrived).2.flatten.count newline ≤ socket_.flatten.count newline := by
  cases arrived with
  | false =>
    simp only [receive_of_not_arrived, Option.toList_none, List.length_nil, Nat.zero_add,
      Nat.le_refl]
  | true =>
    by_cases hmem : newline ∈ socket_.flatten
    · obtain ⟨c⟩ := nonempty_cut hmem
      have hle : (response? parse c.frame).toList.length ≤ 1 := by
        cases response? parse c.frame <;> simp
      simp only [receive_cut c, c.flatten_eq, List.count_append, List.count_cons_self]
      omega
    · rw [receive, readUntil_eq_none List.not_mem_nil hmem]
      split <;> simp

theorem length_receiveAll_le (socket_ : List Bytes) (calls : List Bool) :
    (receiveAll parse socket_ calls).length ≤ socket_.flatten.count newline := by
  induction calls generalizing socket_ with
  | nil => exact Nat.zero_le _
  | cons arrived calls ih =>
    have hfirst := length_receive_le parse socket_ arrived
    have hrest := ih (receive parse socket_ arrived).2
    rw [receiveAll, List.length_append]
    omega

theorem length_receiveAll_le_calls (socket_ : List Bytes) (calls : List Bool) :
    (receiveAll parse socket_ calls).length ≤ calls.length := by
  induction calls generalizing socket_ with
  | nil => exact Nat.le_refl 0
  | cons arrived calls ih =>
    have hfirst : (receive parse socket_ arrived).1.toList.length ≤ 1 := by
      cases (receive parse socket_ arrived).1 <;> simp
    have hrest := ih (receive parse socket_ arrived).2
    rw [receiveAll, List.length_append, List.length_cons]
    omega

variable {parse}

/-- As many calls as responses: the first call has the first response. -/
theorem receiveAll_eq_cons {socket_ : List Bytes} {n : ℕ} {v : Json} {vs : List Json}
    (h : receiveAll parse socket_ (List.replicate (n + 1) true) = v :: vs) (hn : vs.length = n) :
    (receive parse socket_ true).1 = some v ∧
      receiveAll parse (receive parse socket_ true).2 (List.replicate n true) = vs := by
  rw [List.replicate_succ, receiveAll] at h
  cases hfirst : (receive parse socket_ true).1 with
  | none =>
    have hle := length_receiveAll_le_calls parse (receive parse socket_ true).2
      (List.replicate n true)
    rw [hfirst, Option.toList_none, List.nil_append] at h
    rw [h, List.length_cons, List.length_replicate] at hle
    omega
  | some w =>
    rw [hfirst, Option.toList_some, List.singleton_append, List.cons.injEq] at h
    exact ⟨congrArg some h.1, h.2⟩

/-- If one call for each message returns all of them, no segment has spoiled one. -/
theorem keepsMessages_of_receiveAll {socket_ : List Bytes} {ms : List (Message parse)}
    (h : socket_.flatten = wire ms)
    (hall : receiveAll parse socket_ (List.replicate ms.length true) = ms.map (·.value)) :
    KeepsMessages parse socket_ := by
  induction hn : ms.length generalizing socket_ ms with
  | zero =>
    obtain rfl := List.length_eq_zero_iff.mp hn
    refine keepsMessages_of_free ?_
    rw [h]
    exact List.not_mem_nil
  | succ n ih =>
    obtain ⟨m, ms, rfl⟩ := List.exists_cons_of_length_eq_add_one hn
    rw [List.length_cons, Nat.add_right_cancel_iff] at hn
    obtain ⟨c⟩ := exists_cut_of_wire h
    obtain ⟨-, hrest⟩ := cut_wire c h
    have hlater : receiveAll parse c.after (List.replicate ms.length true) = ms.map (·.value) := by
      have hcons := (receiveAll_eq_cons hall (List.length_map _)).2
      rwa [receive_cut c] at hcons
    -- all the newlines of the later messages are still there
    have hextra : newline ∉ c.extra := by
      have hcount := length_receiveAll_le parse c.after (List.replicate ms.length true)
      have hwire := count_wire ms
      rw [hlater, List.length_map] at hcount
      rw [← hrest, List.count_append] at hwire
      exact List.count_eq_zero.mp (by omega)
    have hparse : parse (line newline (c.extra ++ c.after.flatten)) =
        parse (line newline c.after.flatten) := by
      cases ms with
      | nil =>
        obtain ⟨hnil, -⟩ := List.append_eq_nil_iff.mp hrest
        rw [hnil, List.nil_append]
      | cons m' ms =>
        obtain ⟨text, -, hfree, hafter⟩ := wire_split hextra hrest
        obtain ⟨c'⟩ : Nonempty (Cut newline c.after) := nonempty_cut <| by
          rw [hafter]
          exact List.mem_append_right _ List.mem_cons_self
        have hframe : c'.frame = text :=
          (append_cons_inj c'.frame_free hfree (c'.flatten_eq.symm.trans hafter)).1
        -- the next call has to return the next message
        have hnext := (receiveAll_eq_cons hlater (List.length_map _)).1
        rw [receive_cut c', hframe] at hnext
        rw [hrest, wire_cons, line_append_cons m'.newline_free, m'.parsed, hafter,
          line_append_cons hfree, parse_of_response? hnext]
    obtain ⟨ms', hwire, hvalues⟩ := exists_wire hextra hrest hparse
    have hlength : ms'.length = ms.length := by
      simpa only [List.length_map] using congrArg List.length hvalues
    rw [keepsMessages_cut c]
    refine ⟨⟨hextra, hparse⟩, ih hwire ?_ (hlength.trans hn)⟩
    rw [hlength, hvalues, hlater]

/-- `Receive` loses, reorders and repeats nothing exactly when every segment that holds a newline
ends one message only and the next one does not miss the bytes that the segment has of it. -/
theorem receive_lossless_iff (parse : Bytes → Option Json) (ms : List (Message parse))
    (socket_ : List Bytes) (h : socket_.flatten = wire ms) :
    Lossless parse socket_ (ms.map (·.value)) ↔ KeepsMessages parse socket_ := by
  constructor
  · intro hlossless
    refine keepsMessages_of_receiveAll h ((hlossless _).2 ?_)
    rw [List.length_map, List.count_replicate_self]
  · intro hkeeps calls
    rw [receiveAll_eq_take hkeeps h calls]
    exact ⟨List.take_prefix _ _, fun hle => List.take_of_length_le hle⟩

/-- A parser of two numbers, which may have blanks before them. -/
def digit (text : Bytes) : Option Json :=
  match text.dropWhile (· = 0x20) with
  | [0x31] => some (.numberUnsigned 1)
  | [0x32] => some (.numberUnsigned 2)
  | _ => none

def one : Message digit := ⟨bytes "1", .numberUnsigned 1, by decide, rfl, rfl⟩

def two : Message digit := ⟨bytes " 2", .numberUnsigned 2, by decide, rfl, rfl⟩

/-- The first of two segments has the blank of the second message, which nobody misses. -/
theorem receive_lossless_blank :
    Lossless digit [bytes "1\n ", bytes "2\n"] [.numberUnsigned 1, .numberUnsigned 2] := by
  refine (receive_lossless_iff digit [one, two] [bytes "1\n ", bytes "2\n"] rfl).mpr ?_
  let c : Cut newline [bytes "1\n ", bytes "2\n"] :=
    ⟨[], bytes "1", bytes " ", [bytes "2\n"], rfl, List.not_mem_nil, by decide⟩
  let c' : Cut newline [bytes "2\n"] :=
    ⟨[], bytes "2", [], [], rfl, List.not_mem_nil, by decide⟩
  refine (keepsMessages_cut c).mpr ⟨⟨by decide, rfl⟩, ?_⟩
  exact (keepsMessages_cut c').mpr ⟨⟨List.not_mem_nil, rfl⟩, trivial⟩

/-- Of two messages in one segment the second is lost. -/
theorem receive_loses_second_message : ∃ ms : List (Message digit),
    [bytes "1\n 2\n"].flatten = wire ms ∧
      ¬ Lossless digit [bytes "1\n 2\n"] (ms.map (·.value)) := by
  refine ⟨[one, two], rfl, fun h => ?_⟩
  have hall := (h [true, true]).2 (Nat.le_refl 2)
  have hone : receiveAll digit [bytes "1\n 2\n"] [true, true] = [.numberUnsigned 1] := rfl
  rw [hone] at hall
  cases hall

/-! The sending side. -/

variable (dump : Json → Option Bytes)

/-- `Send`: whether it returns true, and what it writes, the dump and nothing after it. `dump()`
throws where the message is not valid UTF-8. -/
def send (data : Json) : Bool × Bytes :=
  match dump data with
  | some message => (true, message)
  | none => (false, [])

/-- The stream that a sequence of `Send` calls writes. -/
def sent (ms : List Json) : Bytes := (ms.map fun data => (send dump data).2).flatten

variable {dump}

theorem newline_notMem_sent
    (hdump : ∀ data message, dump data = some message → newline ∉ message) (ms : List Json) :
    newline ∉ sent dump ms := by
  intro hmem
  obtain ⟨message, hmessage, hmem⟩ := List.mem_flatten.mp hmem
  obtain ⟨data, -, rfl⟩ := List.mem_map.mp hmessage
  simp only [send] at hmem
  cases h : dump data with
  | none => simp [h] at hmem
  | some message => exact hdump data message h (by simpa only [h] using hmem)

/-- Without a newline in the stream no call of `Receive` returns true. -/
theorem receiveAll_of_free {socket_ : List Bytes} (h : newline ∉ socket_.flatten)
    (calls : List Bool) : receiveAll parse socket_ calls = [] := by
  have hle := length_receiveAll_le parse socket_ calls
  rw [List.count_eq_zero.mpr h] at hle
  exact List.eq_nil_of_length_eq_zero (Nat.le_zero.mp hle)

/-- A compact dump has no newline, and `Send` adds none, so that `Receive` finds no message in the
stream, in whatever segments it arrives: the two agree on the empty sequence only. -/
theorem send_receive_iff (dump : Json → Option Bytes) (parse : Bytes → Option Json)
    (hdump : ∀ data message, dump data = some message → newline ∉ message) (ms : List Json)
    (socket_ : List Bytes) (h : socket_.flatten = sent dump ms) :
    Lossless parse socket_ ms ↔ ms = [] := by
  have hfree : newline ∉ socket_.flatten := by
    rw [h]
    exact newline_notMem_sent hdump ms
  constructor
  · intro hlossless
    have hall := (hlossless (List.replicate ms.length true)).2 (by simp)
    rw [receiveAll_of_free hfree] at hall
    exact hall.symm
  · rintro rfl calls
    rw [receiveAll_of_free hfree]
    exact ⟨List.prefix_rfl, fun _ => rfl⟩

/-- The texts of the three literals. -/
def dumpLiteral : Json → Option Bytes
  | .null => some (bytes "null")
  | .boolean true => some (bytes "true")
  | .boolean false => some (bytes "false")
  | _ => none

def parseLiteral (text : Bytes) : Option Json :=
  if text = bytes "null" then some .null
  else if text = bytes "true" then some (.boolean true)
  else if text = bytes "false" then some (.boolean false)
  else none

theorem newline_notMem_dumpLiteral (data : Json) (message : Bytes)
    (h : dumpLiteral data = some message) : newline ∉ message := by
  unfold dumpLiteral at h
  split at h
  iterate 3
    obtain rfl := Option.some.inj h
    decide
  cases h

/-- Two messages that arrive in two segments. -/
theorem send_receive_literals :
    ¬ Lossless parseLiteral [bytes "null", bytes "true"] [.null, .boolean true] := by
  have h := send_receive_iff dumpLiteral parseLiteral newline_notMem_dumpLiteral
    [.null, .boolean true] [bytes "null", bytes "true"] rfl
  exact fun hlossless => nomatch h.mp hlossless

/-- A message that was sent is not received, although it could be parsed. -/
theorem receive_misses_sent_message :
    parseLiteral (sent dumpLiteral [.null]) = some .null ∧
      ¬ Lossless parseLiteral [sent dumpLiteral [.null]] [.null] := by
  refine ⟨rfl, fun h => ?_⟩
  have hall := (h [true]).2 (Nat.le_refl 1)
  have hnone : receiveAll parseLiteral [sent dumpLiteral [.null]] [true] = [] := rfl
  rw [hnone] at hall
  cases hall

end OpenAPT.TcpClient
