import Mathlib.Data.List.Perm.Subperm
import OpenAPT.IndiClient
import OpenAPT.Json
import OpenAPT.WebSocketServer

/-! The client file of `WebSocketServer::saveClientInfo`. -/
namespace OpenAPT
open EventMachine

namespace Json

/-- `operator==` with a `std::string`. -/
def eqString (s : Bytes) : Json → Bool
  | string t => t = s
  | _ => false

/-- `operator==` with a `uint16_t`: the three types of numbers compare by value. -/
def eqUInt16 (n : UInt16) : Json → Bool
  | numberUnsigned m => m = n.toUInt64
  | numberInteger i => i = n.toUInt64.toInt64
  | numberFloat bits => bits = ofInt32 n.toUInt32.toInt32 ∨ (n = 0 ∧ bits = 0x8000000000000000)
  | _ => false

end Json

/-- The client file, as the next reader finds it: not there, a JSON value, or a text that does not
parse. -/
inductive ClientFile
  | missing
  | json (clients : Json)
  | garbled

/-- A call of `saveClientInfo`, with whether the file opens for writing in it. -/
structure SaveCall where
  endpoint : Endpoint
  canWrite : Bool

namespace Endpoint

/-- `client["ip"] == ip && client["port"] == port`, with `client` as the two `operator[]` leave
it. -/
def sameClient (e : Endpoint) (client : Json) : Except StdException (Bool × Json) := do
  let client ← client.index (bytes "ip")
  if (client.find? (bytes "ip")).any (Json.eqString e.ip) then
    let client ← client.index (bytes "port")
    pure ((client.find? (bytes "port")).any (Json.eqUInt16 e.port), client)
  else pure (false, client)

/-- The loop over the clients, up to the one that is the same. -/
def findClient (e : Endpoint) : List Json → Except StdException (Bool × List Json)
  | [] => pure (false, [])
  | client :: clients => do
    let (same, client) ← e.sameClient client
    if same then pure (true, client :: clients)
    else
      let (found, clients) ← e.findClient clients
      pure (found, client :: clients)

def client_info (e : Endpoint) : Json :=
  .object [(bytes "ip", .string e.ip), (bytes "port", .numberUnsigned e.port.toUInt64)]

end Endpoint

/-- `"client" + std::to_string(n)`. -/
def clientKey (n : ℕ) : Bytes := bytes "client" ++ bytes (Nat.repr n)

/-- The value to write, `none` if the client is in the list. The loop visits a scalar as one
element and a null not at all. -/
def addClient (e : Endpoint) : Json → Except StdException (Option Json)
  | .array a => do
    let (found, a) ← e.findClient a
    pure (if found then none else some (.array (a ++ [e.client_info])))
  | .object o => do
    let (found, values) ← e.findClient (o.map Prod.snd)
    let o := (o.map Prod.fst).zip values
    pure (if found then none
      else some (.object (KeyedList.insert (clientKey (o.length + 1)) e.client_info o)))
  | .null => throw ⟨bytes "Invalid JSON file"⟩
  | client => do
    let (found, _) ← e.findClient [client]
    if found then pure none else throw ⟨bytes "Invalid JSON file"⟩

/-- `std::ofstream fout(client_file_path_)` and `fout << clients.dump(4)`: the file is emptied
before `dump` can throw. -/
def ClientFile.write (canWrite : Bool) (file : ClientFile) (clients : Json) : ClientFile :=
  if canWrite then if clients.dumpable then .json clients else .garbled else file

/-- The file after a call. Every exception ends in its handler. -/
def saveClientInfo (file : ClientFile) (c : SaveCall) : ClientFile :=
  match file with
  | .json clients =>
    match addClient c.endpoint clients with
    | .ok (some added) => file.write c.canWrite added
    | .ok none | .error _ => file
  | .missing | .garbled => file

namespace ClientFile

def step (file : ClientFile) (c : SaveCall) : Option ClientFile := some (saveClientInfo file c)

/-- The entries of the file with their keys, which an array does not have. -/
def entries : ClientFile → List (Option Bytes × Json)
  | .json (.array a) => a.map fun client => (none, client)
  | .json (.object o) => o.map fun m => (some m.1, m.2)
  | _ => []

/-- Whether an entry is a record for the endpoint. -/
def isClient (e : Endpoint) (client : Json) : Bool :=
  (client.find? (bytes "ip")).any (Json.eqString e.ip) &&
    (client.find? (bytes "port")).any (Json.eqUInt16 e.port)

/-- How many records for the endpoint the file has. -/
def count (e : Endpoint) (file : ClientFile) : ℕ :=
  file.entries.countP fun entry => isClient e entry.2

/-- A record has an ip and a port, of any type. -/
def IsRecord (client : Json) : Prop :=
  (client.find? (bytes "ip")).isSome ∧ (client.find? (bytes "port")).isSome

/-- What the file may hold: an array or an object of records, whose texts are valid UTF-8 as those
of every parsed text are. -/
structure Clients (file : ClientFile) : Prop where
  container : ∀ clients, file = .json clients → (∃ a, clients = .array a) ∨ ∃ o, clients = .object o
  records : ∀ entry ∈ file.entries, IsRecord entry.2
  dumpable : ∀ clients, file = .json clients → clients.dumpable

/-- After the call there is one record for its endpoint, and every entry from before is there. -/
def SavesRight (file : ClientFile) (c : SaveCall) : Prop :=
  (saveClientInfo file c).count c.endpoint = 1 ∧ file.entries.Subperm (saveClientInfo file c).entries

/-- Whether the next record gets a place of its own. -/
def HasPlace : ClientFile → Prop
  | .json (.array _) => True
  | .json (.object o) => KeyedList.find? (clientKey (o.length + 1)) o = none
  | _ => False

/-- What a call needs: the endpoint is in the file once, or it is not and can be added. -/
def CanSave (file : ClientFile) (c : SaveCall) : Prop :=
  file.count c.endpoint = 1 ∨
    file.count c.endpoint = 0 ∧ c.canWrite ∧ validUtf8 c.endpoint.ip ∧ file.HasPlace

theorem isClient_client_info (e f : Endpoint) : isClient e f.client_info = decide (e = f) := by
  have hne : bytes "ip" ≠ bytes "port" := by decide
  have hport : f.port.toUInt64 = e.port.toUInt64 ↔ e.port = f.port := by
    rw [UInt16.toUInt64_inj, eq_comm]
  have hef : f.ip = e.ip ∧ e.port = f.port ↔ e = f := by
    cases e
    cases f
    rw [Endpoint.mk.injEq, eq_comm]
  simp only [isClient, Endpoint.client_info, Json.find?, KeyedList.find?, hne, ↓reduceIte,
    Option.any_some, Json.eqString, Json.eqUInt16, hport, ← Bool.decide_and, hef]

theorem sameClient_eq {client : Json} (h : IsRecord client) (e : Endpoint) :
    e.sameClient client = .ok (isClient e client, client) := by
  obtain ⟨ip, hip⟩ := Option.isSome_iff_exists.mp h.1
  obtain ⟨port, hport⟩ := Option.isSome_iff_exists.mp h.2
  rw [Endpoint.sameClient, Json.index_of_find?_some hip, isClient, hip, hport]
  cases hsame : ip.eqString e.ip with
  | false => simp [bind, Except.bind, pure, Except.pure, hip, hsame]
  | true =>
    simp [bind, Except.bind, pure, Except.pure, hip, hsame, hport, Json.index_of_find?_some hport]

theorem findClient_eq {clients : List Json} (h : ∀ client ∈ clients, IsRecord client)
    (e : Endpoint) : e.findClient clients = .ok (clients.any (isClient e), clients) := by
  induction clients with
  | nil => rfl
  | cons client clients ih =>
    have hrest := ih fun c hc => h c (List.mem_cons_of_mem client hc)
    rw [Endpoint.findClient, sameClient_eq (h client List.mem_cons_self), List.any_cons, hrest]
    cases isClient e client <;> rfl

/-- The value with a record for the endpoint added. -/
def extended (e : Endpoint) : ClientFile → Option Json
  | .json (.array a) => some (.array (a ++ [e.client_info]))
  | .json (.object o) =>
    some (.object (KeyedList.insert (clientKey (o.length + 1)) e.client_info o))
  | _ => none

theorem findClient_entries {file : ClientFile} (h : file.Clients) (e : Endpoint) :
    e.findClient (file.entries.map Prod.snd) =
      .ok (decide (0 < file.count e), file.entries.map Prod.snd) := by
  have hrecords (client : Json) (hc : client ∈ file.entries.map Prod.snd) : IsRecord client := by
    obtain ⟨entry, hentry, rfl⟩ := List.mem_map.mp hc
    exact h.records entry hentry
  have hany : (file.entries.map Prod.snd).any (isClient e) = decide (0 < file.count e) := by
    rw [List.any_map, Bool.eq_iff_iff, List.any_eq_true, decide_eq_true_eq, count,
      List.countP_pos_iff]
    rfl
  rw [findClient_eq hrecords, hany]

/-- A call writes the extended value exactly where the endpoint is not in the file. -/
theorem saveClientInfo_eq {file : ClientFile} (h : file.Clients) (c : SaveCall) :
    saveClientInfo file c =
      if 0 < file.count c.endpoint then file
      else ((file.extended c.endpoint).map (file.write c.canWrite)).getD file := by
  have hfind := findClient_entries h c.endpoint
  cases file with
  | missing => rfl
  | garbled => rfl
  | json clients =>
    obtain ⟨a, rfl⟩ | ⟨o, rfl⟩ := h.container clients rfl
    · have hvalues : (entries (.json (.array a))).map Prod.snd = a := by
        rw [entries, List.map_map]
        exact List.map_id a
      rw [hvalues] at hfind
      rw [saveClientInfo, addClient, hfind]
      by_cases hfound : 0 < count c.endpoint (.json (.array a))
      · simp [bind, Except.bind, pure, Except.pure, hfound]
      · simp [bind, Except.bind, pure, Except.pure, hfound, extended]
    · have hvalues : (entries (.json (.object o))).map Prod.snd = o.map Prod.snd := by
        rw [entries, List.map_map]
        rfl
      have hzip : (o.map Prod.fst).zip (o.map Prod.snd) = o := (List.zip_of_prod rfl rfl).symm
      rw [hvalues] at hfind
      rw [saveClientInfo, addClient, hfind]
      by_cases hfound : 0 < count c.endpoint (.json (.object o))
      · simp [bind, Except.bind, pure, Except.pure, hfound]
      · simp [bind, Except.bind, pure, Except.pure, hfound, extended, hzip]

theorem hasPlace_extended {file : ClientFile} (h : file.HasPlace) (e : Endpoint) :
    ∃ clients, file.extended e = some clients := by
  cases file with
  | missing => exact h.elim
  | garbled => exact h.elim
  | json clients =>
    cases clients with
    | array a => exact ⟨_, rfl⟩
    | object o => exact ⟨_, rfl⟩
    | _ => exact h.elim

/-- With a place of its own, the record is added to the entries that were there. -/
theorem entries_extended {file : ClientFile} (h : file.HasPlace) {e : Endpoint} {clients : Json}
    (hext : file.extended e = some clients) :
    ∃ key, (entries (.json clients)).Perm ((key, e.client_info) :: file.entries) := by
  cases file with
  | missing => exact h.elim
  | garbled => exact h.elim
  | json before =>
    cases before with
    | array a =>
      obtain rfl := Option.some.inj hext
      refine ⟨none, ?_⟩
      rw [entries, List.map_append]
      exact List.perm_append_singleton _ _
    | object o =>
      obtain rfl := Option.some.inj hext
      refine ⟨some (clientKey (o.length + 1)), ?_⟩
      rw [KeyedList.insert_eq_place h]
      exact (KeyedList.place_perm _ _ o).map _
    | _ => exact h.elim

/-- Without one, an entry is overwritten. -/
theorem length_extended {file : ClientFile} (h : ¬file.HasPlace) {e : Endpoint} {clients : Json}
    (hext : file.extended e = some clients) :
    (entries (.json clients)).length = file.entries.length := by
  cases file with
  | missing => cases hext
  | garbled => cases hext
  | json before =>
    cases before with
    | array a => exact absurd trivial h
    | object o =>
      obtain rfl := Option.some.inj hext
      obtain ⟨v, hv⟩ := Option.ne_none_iff_exists'.mp h
      rw [KeyedList.insert_eq_replace hv, entries, entries, List.length_map, List.length_map,
        KeyedList.length_replace]
    | _ => cases hext

theorem validUtf8_clientKey (n : ℕ) : validUtf8 (clientKey n) = true := by
  apply validUtf8_of_ascii
  intro byte hbyte
  obtain hmem | hmem := List.mem_append.mp hbyte
  · have hclient : (bytes "client").all (· ≤ 0x7F) = true := by decide
    exact of_decide_eq_true (List.all_eq_true.mp hclient byte hmem)
  · obtain ⟨c, hc, rfl⟩ := List.mem_map.mp hmem
    rw [Nat.toList_repr] at hc
    have hdigit := Nat.isDigit_of_mem_toDigits (by decide) (by decide) hc
    have hle : c.toNat ≤ 57 := by
      rw [Char.isDigit, Bool.and_eq_true, decide_eq_true_eq, decide_eq_true_eq] at hdigit
      exact hdigit.2
    rw [UInt8.le_iff_toNat_le, UInt8.toNat_ofNat']
    exact (Nat.mod_le c.toNat 256).trans (hle.trans (by decide))

theorem dumpable_client_info (e : Endpoint) : e.client_info.dumpable = validUtf8 e.ip := by
  have hip : validUtf8 (bytes "ip") = true := by decide
  have hport : validUtf8 (bytes "port") = true := by decide
  simp only [Endpoint.client_info, Json.dumpable, Json.dumpableMembers, Json.dumpableMember, hip,
    hport, Bool.true_and, Bool.and_true]

theorem dumpable_extended {file : ClientFile} (h : file.Clients) (hplace : file.HasPlace)
    {e : Endpoint} {clients : Json} (hext : file.extended e = some clients) :
    clients.dumpable = validUtf8 e.ip := by
  cases file with
  | missing => cases hext
  | garbled => cases hext
  | json before =>
    have hbefore := h.dumpable before rfl
    cases before with
    | array a =>
      obtain rfl := Option.some.inj hext
      rw [Json.dumpable, Json.dumpableElements_eq] at hbefore ⊢
      rw [List.all_append, hbefore, Bool.true_and, List.all_cons, List.all_nil, Bool.and_true,
        dumpable_client_info]
    | object o =>
      obtain rfl := Option.some.inj hext
      rw [Json.dumpable, Json.dumpableMembers_eq] at hbefore ⊢
      rw [KeyedList.insert_eq_place hplace, (KeyedList.place_perm _ _ o).all_eq, List.all_cons,
        hbefore, Bool.and_true, Json.dumpableMember, validUtf8_clientKey, Bool.true_and,
        dumpable_client_info]
    | _ => cases hext

theorem isRecord_client_info (e : Endpoint) : IsRecord e.client_info := by
  have hne : bytes "ip" ≠ bytes "port" := by decide
  simp [IsRecord, Endpoint.client_info, Json.find?, KeyedList.find?, hne]

theorem count_garbled (e : Endpoint) : count e .garbled = 0 := rfl

/-- Where a call can save, it leaves the file or adds one entry, the record of its endpoint. -/
theorem entries_of_canSave {file : ClientFile} (h : file.Clients) {c : SaveCall}
    (hc : file.CanSave c) :
    (saveClientInfo file c = file ∧ file.count c.endpoint = 1) ∨
      file.count c.endpoint = 0 ∧ ∃ key, (saveClientInfo file c).entries.Perm
        ((key, c.endpoint.client_info) :: file.entries) := by
  obtain hone | ⟨hzero, hwrite, hip, hplace⟩ := hc
  · left
    rw [saveClientInfo_eq h, if_pos (by omega)]
    exact ⟨rfl, hone⟩
  · right
    obtain ⟨clients, hext⟩ := hasPlace_extended hplace c.endpoint
    have hdump : clients.dumpable = true := (dumpable_extended h hplace hext).trans hip
    have hafter : saveClientInfo file c = .json clients := by
      rw [saveClientInfo_eq h, if_neg (by omega), hext, Option.map_some, Option.getD_some, write,
        if_pos hwrite, if_pos hdump]
    rw [hafter]
    exact ⟨hzero, entries_extended hplace hext⟩

/-- Where it cannot, the endpoint is not in the file once, or an entry is overwritten. -/
theorem savesRight_iff {file : ClientFile} (h : file.Clients) (c : SaveCall) :
    file.SavesRight c ↔ file.CanSave c := by
  constructor
  · intro ⟨hone, hkept⟩
    rw [saveClientInfo_eq h] at hone hkept
    by_cases hpos : 0 < file.count c.endpoint
    · rw [if_pos hpos] at hone
      exact Or.inl hone
    · rw [if_neg hpos] at hone hkept
      have hzero : file.count c.endpoint = 0 := by omega
      cases hext : file.extended c.endpoint with
      | none =>
        rw [hext, Option.map_none, Option.getD_none] at hone
        omega
      | some clients =>
        rw [hext, Option.map_some, Option.getD_some, write] at hone hkept
        split_ifs at hone hkept with hwrite hdump
        · -- If nothing had a free key, as many entries as before would hold all those from before.
          have hplace : file.HasPlace := by
            by_contra hplace
            have hperm := hkept.perm_of_length_le (length_extended hplace hext).le
            have hcount := hperm.countP_eq fun entry => isClient c.endpoint entry.2
            rw [count] at hone hzero
            omega
          have hip := (dumpable_extended h hplace hext).symm.trans hdump
          exact Or.inr ⟨hzero, hwrite, hip, hplace⟩
        · rw [count_garbled] at hone
          omega
        · omega
  · intro hc
    obtain ⟨hafter, hone⟩ | ⟨hzero, key, hperm⟩ := entries_of_canSave h hc
    · rw [SavesRight, hafter]
      exact ⟨hone, List.Subperm.refl _⟩
    · constructor
      · rw [count, hperm.countP_eq, List.countP_cons, isClient_client_info, decide_eq_true rfl]
        rw [count] at hzero
        rw [hzero, if_pos rfl]
      · exact (List.subperm_cons_self).trans hperm.symm.subperm

theorem clients_garbled : Clients .garbled where
  container := by
    intro clients h
    cases h
  records := by
    intro entry h
    cases h
  dumpable := by
    intro clients h
    cases h

theorem mem_entries_extended {file : ClientFile} {e : Endpoint} {clients : Json}
    (hext : file.extended e = some clients) {entry : Option Bytes × Json}
    (h : entry ∈ entries (.json clients)) : entry.2 = e.client_info ∨ entry ∈ file.entries := by
  cases file with
  | missing => cases hext
  | garbled => cases hext
  | json before =>
    cases before with
    | array a =>
      obtain rfl := Option.some.inj hext
      rw [entries, List.map_append] at h
      obtain hold | hnew := List.mem_append.mp h
      · exact Or.inr hold
      · rw [List.mem_singleton.mp hnew]
        exact Or.inl rfl
    | object o =>
      obtain rfl := Option.some.inj hext
      obtain ⟨m, hm, rfl⟩ := List.mem_map.mp h
      obtain rfl | hold := KeyedList.mem_insert hm
      · exact Or.inl rfl
      · exact Or.inr (List.mem_map_of_mem hold)
    | _ => cases hext

theorem container_extended {file : ClientFile} {e : Endpoint} {clients : Json}
    (hext : file.extended e = some clients) :
    (∃ a, clients = .array a) ∨ ∃ o, clients = .object o := by
  cases file with
  | missing => cases hext
  | garbled => cases hext
  | json before =>
    cases before with
    | array a => exact Or.inl ⟨_, (Option.some.inj hext).symm⟩
    | object o => exact Or.inr ⟨_, (Option.some.inj hext).symm⟩
    | _ => cases hext

/-- Every call keeps the file an array or an object of records, or leaves a text that does not
parse. -/
theorem clients_saveClientInfo {file : ClientFile} (h : file.Clients) (c : SaveCall) :
    (saveClientInfo file c).Clients := by
  rw [saveClientInfo_eq h]
  split_ifs
  · exact h
  cases hext : file.extended c.endpoint with
  | none => exact h
  | some clients =>
    rw [Option.map_some, Option.getD_some, write]
    split_ifs with hwrite hdump
    · constructor
      · rintro _ ⟨⟩
        exact container_extended hext
      · intro entry hentry
        obtain hnew | hold := mem_entries_extended hext hentry
        · rw [hnew]
          exact isRecord_client_info c.endpoint
        · exact h.records entry hold
      · rintro _ ⟨⟩
        exact hdump
    · exact clients_garbled
    · exact h

/-- A call that can save makes its endpoint present once and leaves the count of every other. -/
theorem count_of_canSave {file : ClientFile} (h : file.Clients) {c : SaveCall}
    (hc : file.CanSave c) (e : Endpoint) :
    (saveClientInfo file c).count e = if e = c.endpoint then 1 else file.count e := by
  obtain ⟨hafter, hone⟩ | ⟨hzero, key, hperm⟩ := entries_of_canSave h hc
  · rw [hafter]
    split_ifs with he
    · rw [he, hone]
    · rfl
  · rw [count, hperm.countP_eq, List.countP_cons, isClient_client_info]
    rw [count] at hzero
    by_cases he : e = c.endpoint
    · rw [he, hzero, decide_eq_true rfl, if_pos rfl, if_pos rfl]
    · rw [decide_eq_false he, if_neg Bool.false_ne_true, if_neg he, count, Nat.add_zero]

/-- What a run of calls that can save leaves: all entries from before, each endpoint of a call once,
and no change in the number of the others. -/
theorem run_of_canSave {file : ClientFile} (h : file.Clients) {calls : List SaveCall}
    (hsteps : Steps step CanSave file calls) :
    ∃ after, run step file calls = some after ∧ file.entries.Subperm after.entries ∧
      ∀ e, after.count e = if e ∈ calls.map SaveCall.endpoint then 1 else file.count e := by
  induction calls generalizing file with
  | nil => exact ⟨file, rfl, List.Subperm.refl _, fun e => by simp⟩
  | cons c calls ih =>
    obtain ⟨after, hrun, hkept, hcount⟩ := ih (clients_saveClientInfo h c) (hsteps.2 _ rfl)
    have hsaves := (savesRight_iff h c).mpr hsteps.1
    refine ⟨after, hrun, hsaves.2.trans hkept, fun e => ?_⟩
    rw [hcount, count_of_canSave h hsteps.1, List.map_cons]
    by_cases hmem : e ∈ calls.map SaveCall.endpoint
    · rw [if_pos hmem, if_pos (List.mem_cons_of_mem _ hmem)]
    · rw [if_neg hmem]
      by_cases he : e = c.endpoint
      · rw [if_pos he, if_pos (he ▸ List.mem_cons_self)]
      · rw [if_neg he, if_neg fun hcons => (List.mem_cons.mp hcons).elim he hmem]

/-- The calls of a run all save right exactly when they all can save. Then no client is lost and
none is there twice that was not before. -/
theorem saveClientInfo_right_iff {file : ClientFile} (h : file.Clients) (calls : List SaveCall) :
    (Steps step SavesRight file calls ↔ Steps step CanSave file calls) ∧
      (Steps step CanSave file calls → ∃ after, run step file calls = some after ∧
        file.entries.Subperm after.entries ∧
        ∀ e, after.count e = if e ∈ calls.map SaveCall.endpoint then 1 else file.count e) := by
  constructor
  · apply steps_congr (I := Clients)
    · intro before c after hbefore hstep
      obtain rfl := Option.some.inj hstep
      exact clients_saveClientInfo hbefore c
    · intro before c hbefore
      exact savesRight_iff hbefore c
    · exact h
  · exact run_of_canSave h

/-- An object with one record, of the loopback at port 80. -/
def oneClient (key : Bytes) : ClientFile :=
  .json (.object [(key, Endpoint.client_info ⟨bytes "127.0.0.1", 80⟩)])

theorem clients_oneClient {key : Bytes} (h : validUtf8 key = true) : (oneClient key).Clients where
  container := by
    rintro _ ⟨⟩
    exact Or.inr ⟨_, rfl⟩
  records := by
    intro entry hentry
    rw [List.mem_singleton.mp hentry]
    exact isRecord_client_info _
  dumpable := by
    rintro _ ⟨⟩
    have hip : validUtf8 (bytes "127.0.0.1") = true := by decide
    simp only [Json.dumpable, Json.dumpableMembers, Json.dumpableMember, dumpable_client_info, h,
      hip, Bool.and_true]

theorem saveClientInfo_right_example :
    Steps step SavesRight (oneClient (bytes "client1")) [⟨⟨bytes "127.0.0.1", 81⟩, true⟩] := by
  apply (saveClientInfo_right_iff (clients_oneClient (by decide)) _).1.mpr
  have hplace : KeyedList.find? (clientKey 2)
      [(bytes "client1", Endpoint.client_info ⟨bytes "127.0.0.1", 80⟩)] = none := rfl
  exact ⟨Or.inr ⟨by decide, rfl, by decide, hplace⟩, fun _ _ => trivial⟩

/-- A file that is not there stays so, and the record under `client2` is overwritten. -/
theorem saveClientInfo_not_right :
    ¬SavesRight .missing ⟨⟨bytes "127.0.0.1", 81⟩, true⟩ ∧
      (oneClient (bytes "client2")).Clients ∧
      ¬SavesRight (oneClient (bytes "client2")) ⟨⟨bytes "127.0.0.1", 81⟩, true⟩ := by
  have hclients := clients_oneClient (by decide : validUtf8 (bytes "client2") = true)
  refine ⟨fun h => absurd h.1 (by decide), hclients, fun h => ?_⟩
  obtain hone | ⟨-, -, -, hplace⟩ := (savesRight_iff hclients _).mp h
  · revert hone
    decide
  · have htaken : KeyedList.find? (clientKey 2)
        [(bytes "client2", Endpoint.client_info ⟨bytes "127.0.0.1", 80⟩)] =
          some (Endpoint.client_info ⟨bytes "127.0.0.1", 80⟩) := rfl
    exact Option.some_ne_none _ (htaken.symm.trans hplace)

end ClientFile

end OpenAPT
