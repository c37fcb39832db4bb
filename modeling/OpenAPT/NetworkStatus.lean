import Mathlib.Algebra.Order.Ring.Int
import OpenAPT.Json
import OpenAPT.Lib.LineReads
import OpenAPT.Lib.Strtod
import OpenAPT.Lib.Words

/-! `GetNetworkStatus` on the table of `netstat -an`. -/
namespace OpenAPT

/-- `std::stoi`. Both of its exceptions have the same text. -/
def stoi (str : Bytes) : Except StdException ℤ :=
  let (negative, rest) := Strtod.sign ((cStr str).dropWhile Strtod.isSpace)
  let number := rest.takeWhile Readers.isDigit
  let value : ℤ := if negative then -(Decimals.natOf number : ℤ) else Decimals.natOf number
  if number = [] then .error ⟨bytes "stoi"⟩
  else if value < -2 ^ 31 ∨ 2 ^ 31 ≤ value then .error ⟨bytes "stoi"⟩
  else .ok value

namespace NetworkStatus

def newline : UInt8 := 0x0A
def colon : UInt8 := 0x3A

/-- `substr(find_last_of(':') + 1)`, which is the whole text if it has no colon. -/
def afterColon (token : Bytes) : Bytes := (Delimited.line colon token.reverse).reverse

/-- An address of a line and its port, cast to `unsigned short`; both are empty without a token. -/
def endpoint (tokens : List Bytes) (i : ℕ) : Except StdException (Bytes × UInt16) :=
  match tokens[i]? with
  | none => .ok ([], 0)
  | some token => (stoi (afterColon token)).map fun port => (token, UInt16.ofInt port)

/-- The entry of a line. -/
def connection (line : Bytes) : Except StdException Bytes := do
  let tokens := Words.words Strtod.isSpace line
  -- the counts of the two queues stand before the addresses
  let (local_address, local_port) ← endpoint tokens 3
  let (remote_address, remote_port) ← endpoint tokens 4
  pure (bytes "TCP " ++ local_address ++ bytes ":" ++ Decimals.natText local_port.toNat ++
    bytes " -> " ++ remote_address ++ bytes ":" ++ Decimals.natText remote_port.toNat)

/-- A buffer of the loop. -/
def visit (net_connections : List Bytes) (buffer : Bytes) : Except StdException (List Bytes) :=
  let line := cStr buffer
  if bytes "tcp" <:+: line then do
    let entry ← connection line
    pure (net_connections ++ [entry])
  else .ok net_connections

theorem room : 0 < 255 := by decide

/-- `popen` gives the output of `netstat`, or fails. -/
def GetNetworkStatus (pipe : Option Bytes) : Except StdException (List Bytes) :=
  match pipe with
  | none => .ok []
  | some output => (LineReads.reads newline 255 room output).foldlM visit []

/-! The table. -/

/-- A word of the table. -/
structure Word where
  text : Bytes
  isWord : Words.IsWord Strtod.isSpace text

/-- A host and a port, which is `none` where the table has a star. -/
structure Address where
  host : Bytes
  no_space : ∀ b ∈ host, Strtod.isSpace b = false
  port : Option UInt16

namespace Address

def portText (a : Address) : Bytes :=
  match a.port with
  | none => bytes "*"
  | some port => Decimals.natText port.toNat

def text (a : Address) : Bytes := a.host ++ colon :: a.portText

end Address

/-- The flags of a UNIX socket. -/
inductive Flag
  | ACC
  | W
  | N

def Flag.text : Flag → Bytes
  | ACC => bytes "ACC"
  | W => bytes "W"
  | N => bytes "N"

/-- A row of the table: one of a TCP socket, of IPv4 or of IPv6, one of a UNIX socket, with its path
at the end, or a line in which there is no "tcp". -/
inductive Row
  | tcp (six : Bool) (recvQ sendQ : Word) (local_ remote : Address) (more : List Word)
  | unix (text : Bytes) (refCnt : Word) (flags : List Flag) (more : List Word)
  | other (text : Bytes)

namespace Row

/-- The words of a row of a socket. -/
def fields : Row → List Bytes
  | tcp six recvQ sendQ local_ remote more =>
    (if six then bytes "tcp6" else bytes "tcp") :: recvQ.text :: sendQ.text :: local_.text ::
      remote.text :: more.map Word.text
  | unix _ refCnt flags more =>
    bytes "unix" :: refCnt.text :: bytes "[" :: (flags.map Flag.text ++
      bytes "]" :: more.map Word.text)
  | other _ => []

/-- The words of a row stand in a line, in order, with space between them. -/
def Shows (row : Row) (line : Bytes) : Prop :=
  ∃ parts : List (Bytes × Bytes), parts.map Prod.fst = row.fields ∧
    (∀ e ∈ parts, e.2 ≠ [] ∧ ∀ c ∈ e.2, Strtod.isSpace c = true) ∧
      line ++ [newline] = parts.flatMap fun e => e.1 ++ e.2

/-- The line shows the row, and fits into the buffer of the loop. -/
structure Printed (row : Row) (line : Bytes) : Prop where
  no_newline : newline ∉ line
  no_zero : 0 ∉ line
  fits : line.length < 255
  shows : match row with
    | tcp _ _ _ _ _ _ => row.Shows line
    | unix text _ _ _ => line = text ∧ row.Shows line
    | other text => line = text ∧ ¬bytes "tcp" <:+: text

/-- Where "tcp" is found, there are two ports, and both are numbers: no TCP socket listens, and no
path of a UNIX socket has "tcp" in it. -/
def Numeric : Row → Prop
  | tcp _ _ _ local_ remote _ => local_.port ≠ none ∧ remote.port ≠ none
  | unix text _ _ _ => ¬bytes "tcp" <:+: text
  | other _ => True

/-- The entries of a row: an address is given with its port, and the port again. -/
def entries : Row → List Bytes
  | tcp _ _ _ local_ remote _ =>
    [bytes "TCP " ++ local_.text ++ bytes ":" ++ local_.portText ++ bytes " -> " ++ remote.text ++
      bytes ":" ++ remote.portText]
  | unix _ _ _ _ => []
  | other _ => []

end Row

/-! Ports. -/

theorem isDigit_cases {b : UInt8} (h : Readers.isDigit b = true) :
    Strtod.isSpace b = false ∧ b ≠ 0 ∧ b ≠ 0x2D ∧ b ≠ 0x2B ∧ b ≠ colon :=
  Readers.forall_byte
    (P := fun b => Readers.isDigit b = true →
      Strtod.isSpace b = false ∧ b ≠ 0 ∧ b ≠ 0x2D ∧ b ≠ 0x2B ∧ b ≠ colon)
    (by decide +kernel) b h

theorem cStr_of_not_mem {s : Bytes} (h : 0 ∉ s) : cStr s = s :=
  List.takeWhile_eq_self_iff.mpr fun _ hb => decide_eq_true fun hzero => h (hzero ▸ hb)

theorem stoi_natText {n : ℕ} (hn : n < 2 ^ 31) : stoi (Decimals.natText n) = .ok (n : ℤ) := by
  have hdigits := Decimals.isDigit_natText n
  -- a digit is no zero byte, no space and no sign, so each step of `stoi` passes over nothing
  have hcStr : cStr (Decimals.natText n) = Decimals.natText n :=
    cStr_of_not_mem fun h => (isDigit_cases (hdigits 0 h)).2.1 rfl
  obtain ⟨b, t, hcons⟩ := List.exists_cons_of_ne_nil (Decimals.natText_ne_nil n)
  have hb := isDigit_cases (hdigits b (hcons ▸ List.mem_cons_self))
  have hskip : (Decimals.natText n).dropWhile Strtod.isSpace = Decimals.natText n := by
    rw [hcons, List.dropWhile_cons, hb.1, if_neg Bool.false_ne_true]
  have hsign : Strtod.sign (Decimals.natText n) = (false, Decimals.natText n) := by
    rw [hcons, Strtod.sign, if_neg hb.2.2.1, if_neg hb.2.2.2.1]
  have htake : (Decimals.natText n).takeWhile Readers.isDigit = Decimals.natText n :=
    List.takeWhile_eq_self_iff.mpr hdigits
  have hrange : ¬((n : ℤ) < -2 ^ 31 ∨ 2 ^ 31 ≤ (n : ℤ)) := by omega
  simp only [stoi, hcStr, hskip, hsign, htake, Bool.false_eq_true, if_false,
    Decimals.natText_ne_nil, Decimals.natOf_natText, hrange]

theorem afterColon_append {host port : Bytes} (h : colon ∉ port) :
    afterColon (host ++ colon :: port) = port := by
  have hreverse : colon ∉ port.reverse := fun hmem => h (List.mem_reverse.mp hmem)
  rw [afterColon, List.reverse_append, List.reverse_cons, List.append_assoc, List.singleton_append,
    Delimited.line_append_cons hreverse, List.reverse_reverse]

theorem colon_not_mem_portText (a : Address) : colon ∉ a.portText := by
  rw [Address.portText]
  cases a.port with
  | none => decide
  | some port =>
    exact fun h => (isDigit_cases (Decimals.isDigit_natText port.toNat colon h)).2.2.2.2 rfl

theorem endpoint_text {tokens : List Bytes} {i : ℕ} {a : Address} (h : tokens[i]? = some a.text) :
    endpoint tokens i =
      match a.port with
      | none => .error ⟨bytes "stoi"⟩
      | some port => .ok (a.text, port) := by
  have hafter : afterColon a.text = a.portText := afterColon_append (colon_not_mem_portText a)
  simp only [endpoint, h, hafter, Address.portText]
  cases a.port with
  | none => rfl
  | some port =>
    have hlt : port.toNat < 2 ^ 31 := port.toNat_lt.trans (by decide)
    -- the cast to `unsigned short` loses nothing of a port
    have hcast : UInt16.ofInt (port.toNat : ℤ) = port := by
      rw [UInt16.ofInt, ← UInt16.toNat_inj, UInt16.toNat_ofNat']
      have := port.toNat_lt
      omega
    dsimp only
    rw [stoi_natText hlt, Except.map, hcast]

/-! Rows. -/

variable {row : Row} {line : Bytes}

theorem isWord_address {a : Address} : Words.IsWord Strtod.isSpace a.text := by
  refine ⟨List.append_ne_nil_of_right_ne_nil _ (List.cons_ne_nil _ _), ?_⟩
  intro b hb
  rcases List.mem_append.mp hb with hb | hb
  · exact a.no_space b hb
  · rcases List.mem_cons.mp hb with rfl | hb
    · decide
    · rw [Address.portText] at hb
      cases hport : a.port with
      | none =>
        rw [hport] at hb
        rw [List.mem_singleton.mp hb]
        decide
      | some port =>
        rw [hport] at hb
        exact (isDigit_cases (Decimals.isDigit_natText port.toNat b hb)).1

theorem isWord_of_mem_fields {w : Bytes} (h : w ∈ row.fields) : Words.IsWord Strtod.isSpace w := by
  cases row with
  | other _ => exact absurd h List.not_mem_nil
  | tcp six recvQ sendQ local_ remote more =>
    simp only [Row.fields, List.mem_cons, List.mem_map] at h
    rcases h with rfl | rfl | rfl | rfl | rfl | ⟨word, _, rfl⟩
    · cases six <;> decide
    · exact recvQ.isWord
    · exact sendQ.isWord
    · exact isWord_address
    · exact isWord_address
    · exact word.isWord
  | unix text refCnt flags more =>
    simp only [Row.fields, List.mem_cons, List.mem_append, List.mem_map] at h
    rcases h with rfl | rfl | rfl | ⟨flag, _, rfl⟩ | rfl | ⟨word, _, rfl⟩
    · decide
    · exact refCnt.isWord
    · decide
    · cases flag <;> decide
    · decide
    · exact word.isWord

/-- The words of a line with its newline are those of the row. -/
theorem words_of_shows (h : row.Shows line) :
    Words.words Strtod.isSpace (line ++ [newline]) = row.fields := by
  obtain ⟨parts, hparts, hgaps, hline⟩ := h
  rw [hline, ← hparts]
  refine Words.words_flatMap (fun e he => ?_) hgaps
  exact isWord_of_mem_fields (hparts ▸ List.mem_map_of_mem he)

theorem tcp_infix_of_printed {six : Bool} {recvQ sendQ : Word} {local_ remote : Address}
    {more : List Word} (h : (Row.tcp six recvQ sendQ local_ remote more).Printed line) :
    bytes "tcp" <:+: line ++ [newline] := by
  obtain ⟨parts, hparts, -, hline⟩ := h.shows
  rw [Row.fields] at hparts
  obtain ⟨e, parts, rfl⟩ : ∃ e rest, parts = e :: rest := by
    cases parts with
    | nil => cases hparts
    | cons e rest => exact ⟨e, rest, rfl⟩
  obtain ⟨hfirst, -⟩ := List.cons.inj hparts
  have hpre : bytes "tcp" <+: e.1 := by
    rw [hfirst]
    cases six <;> decide
  rw [hline, List.flatMap_cons, List.append_assoc]
  exact (hpre.trans (List.prefix_append _ _)).isInfix

/-- The newline adds no "tcp" to a line. -/
theorem tcp_infix_concat : bytes "tcp" <:+: line ++ [newline] ↔ bytes "tcp" <:+: line := by
  rw [List.infix_concat_iff, List.suffix_concat_iff]
  refine or_iff_right ?_
  -- a "tcp" that is not in the line would have to end with the newline
  rintro (hnil | ⟨t, hlast, -⟩)
  · cases hnil
  · have hmem : newline ∈ bytes "tcp" := hlast ▸ List.mem_append_right t List.mem_cons_self
    exact absurd hmem (by decide)

/-- The fourth word of a UNIX socket is a flag or a bracket, and no number. -/
theorem connection_unix {text : Bytes} {refCnt : Word} {flags : List Flag} {more : List Word}
    (h : (Row.unix text refCnt flags more).Shows line) :
    connection (line ++ [newline]) = .error ⟨bytes "stoi"⟩ := by
  have hword : endpoint (Row.unix text refCnt flags more).fields 3 = .error ⟨bytes "stoi"⟩ := by
    cases flags with
    | nil => rfl
    | cons flag flags => cases flag <;> rfl
  rw [connection, words_of_shows h, hword]
  rfl

theorem cStr_of_printed (h : row.Printed line) : cStr (line ++ [newline]) = line ++ [newline] := by
  apply cStr_of_not_mem
  rw [List.mem_append, List.mem_singleton, not_or]
  exact ⟨h.no_zero, by decide⟩

/-- One buffer: a row adds its entries, or its ports cannot be read. -/
theorem visit_of_printed (h : row.Printed line) (net_connections : List Bytes) :
    (row.Numeric → visit net_connections (line ++ [newline]) =
      .ok (net_connections ++ row.entries)) ∧
    (¬row.Numeric → visit net_connections (line ++ [newline]) = .error ⟨bytes "stoi"⟩) := by
  rw [visit, cStr_of_printed h]
  cases row with
  | other text =>
    obtain ⟨rfl, hnone⟩ := h.shows
    rw [if_neg (mt tcp_infix_concat.mp hnone), Row.entries, List.append_nil]
    exact ⟨fun _ => rfl, fun hnot => absurd trivial hnot⟩
  | unix text refCnt flags more =>
    obtain ⟨rfl, hshows⟩ := h.shows
    rw [Row.Numeric, Row.entries, List.append_nil, not_not]
    constructor
    · intro hnone
      rw [if_neg (mt tcp_infix_concat.mp hnone)]
    · intro htcp
      rw [if_pos (tcp_infix_concat.mpr htcp), connection_unix hshows]
      rfl
  | tcp six recvQ sendQ local_ remote more =>
    have hwords := words_of_shows h.shows
    have hlocal : (Words.words Strtod.isSpace (line ++ [newline]))[3]? = some local_.text := by
      rw [hwords]
      rfl
    have hremote : (Words.words Strtod.isSpace (line ++ [newline]))[4]? = some remote.text := by
      rw [hwords]
      rfl
    rw [if_pos (tcp_infix_of_printed h), connection]
    simp only [endpoint_text hlocal, endpoint_text hremote, Row.Numeric, Row.entries,
      Address.portText]
    cases local_.port with
    | none => exact ⟨fun hports => absurd rfl hports.1, fun _ => rfl⟩
    | some port =>
      cases remote.port with
      | none => exact ⟨fun hports => absurd rfl hports.2, fun _ => rfl⟩
      | some port' =>
        refine ⟨fun _ => rfl, fun hnot => absurd ⟨?_, ?_⟩ hnot⟩
        · exact Option.some_ne_none port
        · exact Option.some_ne_none port'

/-- The loop over the lines of a table. -/
theorem foldlM_visit {rows : List Row} {lines : List Bytes}
    (h : List.Forall₂ Row.Printed rows lines) (net_connections : List Bytes) :
    ((∀ row ∈ rows, row.Numeric) →
      (lines.map (· ++ [newline])).foldlM visit net_connections =
        .ok (net_connections ++ rows.flatMap Row.entries)) ∧
    ((∃ row ∈ rows, ¬row.Numeric) →
      (lines.map (· ++ [newline])).foldlM visit net_connections = .error ⟨bytes "stoi"⟩) := by
  induction h generalizing net_connections with
  | nil =>
    refine ⟨fun _ => ?_, fun ⟨row, hrow, _⟩ => absurd hrow List.not_mem_nil⟩
    rw [List.flatMap_nil, List.append_nil]
    rfl
  | @cons row line rows lines hrow _ ih =>
    have hvisit := visit_of_printed hrow net_connections
    rw [List.map_cons, List.foldlM_cons]
    constructor
    · intro hall
      rw [List.forall_mem_cons] at hall
      rw [hvisit.1 hall.1, List.flatMap_cons, ← List.append_assoc]
      exact (ih (net_connections ++ row.entries)).1 hall.2
    · -- the loop is left at the first row whose ports are not both numbers
      intro hsome
      by_cases hnumeric : row.Numeric
      · rw [hvisit.1 hnumeric]
        refine (ih (net_connections ++ row.entries)).2 ?_
        exact ((List.exists_mem_cons_iff _ _ _).mp hsome).resolve_left fun hnot => hnot hnumeric
      · rw [hvisit.2 hnumeric]
        rfl

/-- On the table of `netstat`, `GetNetworkStatus` gives the entries of the TCP sockets in order if
none of them listens and there is no "tcp" in the path of a UNIX socket. As soon as there is a port
that is a star, or such a path, it throws. -/
theorem getNetworkStatus_of_rows {rows : List Row} {lines : List Bytes}
    (h : List.Forall₂ Row.Printed rows lines) :
    ((∀ row ∈ rows, row.Numeric) →
      GetNetworkStatus (some (Delimited.frames newline lines)) =
        .ok (rows.flatMap Row.entries)) ∧
    ((∃ row ∈ rows, ¬row.Numeric) →
      GetNetworkStatus (some (Delimited.frames newline lines)) = .error ⟨bytes "stoi"⟩) := by
  have hlines : ∀ line ∈ lines, newline ∉ line ∧ line.length < 255 := by
    induction h with
    | nil => exact fun line hmem => absurd hmem List.not_mem_nil
    | cons hrow _ ih => exact List.forall_mem_cons.mpr ⟨⟨hrow.no_newline, hrow.fits⟩, ih⟩
  rw [GetNetworkStatus, LineReads.reads_frames (fun line hmem => (hlines line hmem).1)
    fun line hmem => (hlines line hmem).2]
  exact foldlM_visit h []

theorem isWord_zero : Words.IsWord Strtod.isSpace (bytes "0") :=
  ⟨List.cons_ne_nil _ _, List.forall_mem_singleton.mpr rfl⟩

theorem no_space_host : ∀ b ∈ bytes "h", Strtod.isSpace b = false :=
  List.forall_mem_singleton.mpr rfl

/-- A socket on the host "h", with its two ports. -/
def socketRow (local_port remote_port : Option UInt16) : Row :=
  .tcp false ⟨bytes "0", isWord_zero⟩ ⟨bytes "0", isWord_zero⟩ ⟨bytes "h", no_space_host, local_port⟩
    ⟨bytes "h", no_space_host, remote_port⟩ []

theorem printed_socketRow {local_port remote_port : Option UInt16} {line local_ remote : Bytes}
    (hlocal : (Address.mk (bytes "h") no_space_host local_port).text = local_)
    (hremote : (Address.mk (bytes "h") no_space_host remote_port).text = remote)
    (hno_newline : newline ∉ line) (hno_zero : 0 ∉ line) (hfits : line.length < 255)
    (hline : line = bytes "tcp 0 0 " ++ local_ ++ bytes " " ++ remote) :
    (socketRow local_port remote_port).Printed line := by
  subst hlocal hremote
  refine ⟨hno_newline, hno_zero, hfits, ?_⟩
  have hgap {c : UInt8} (hc : Strtod.isSpace c = true) :
      [c] ≠ [] ∧ ∀ b ∈ [c], Strtod.isSpace b = true :=
    ⟨List.cons_ne_nil c [], List.forall_mem_singleton.mpr hc⟩
  refine ⟨[(bytes "tcp", [0x20]), (bytes "0", [0x20]), (bytes "0", [0x20]), (_, [0x20]),
    (_, [newline])], rfl, ?_, ?_⟩
  · have hspace := hgap (c := 0x20) rfl
    exact List.forall_mem_cons.mpr ⟨hspace, List.forall_mem_cons.mpr ⟨hspace,
      List.forall_mem_cons.mpr ⟨hspace, List.forall_mem_cons.mpr ⟨hspace,
        List.forall_mem_singleton.mpr (hgap rfl)⟩⟩⟩⟩
  · rw [hline]
    simp only [List.flatMap_cons, List.flatMap_nil, List.append_nil, List.append_assoc]
    rfl

/-- One connection, and then a socket that listens. -/
theorem getNetworkStatus_of_rows_listening :
    GetNetworkStatus (some (Delimited.frames newline [bytes "tcp 0 0 h:22 h:5022"])) =
        .ok [bytes "TCP h:22:22 -> h:5022:5022"] ∧
      GetNetworkStatus (some (Delimited.frames newline
        [bytes "tcp 0 0 h:22 h:5022", bytes "tcp 0 0 h:80 h:*"])) = .error ⟨bytes "stoi"⟩ := by
  have hconnected : (socketRow (some 22) (some 5022)).Printed (bytes "tcp 0 0 h:22 h:5022") :=
    @printed_socketRow (some 22) (some 5022) _ (bytes "h:22") (bytes "h:5022") rfl rfl
      (by decide) (by decide) (by decide) rfl
  have hlistens : (socketRow (some 80) none).Printed (bytes "tcp 0 0 h:80 h:*") :=
    @printed_socketRow (some 80) none _ (bytes "h:80") (bytes "h:*") rfl rfl
      (by decide) (by decide) (by decide) rfl
  have hnumeric : (socketRow (some 22) (some 5022)).Numeric := by
    refine ⟨?_, ?_⟩ <;> exact Option.some_ne_none _
  constructor
  · exact (getNetworkStatus_of_rows (.cons hconnected .nil)).1
      (List.forall_mem_singleton.mpr hnumeric)
  · refine (getNetworkStatus_of_rows (.cons hconnected (.cons hlistens .nil))).2 ?_
    exact ⟨_, List.mem_cons_of_mem _ List.mem_cons_self, fun hports => hports.2 rfl⟩

end NetworkStatus

end OpenAPT
