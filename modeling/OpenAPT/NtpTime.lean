import OpenAPT.Bytes
import OpenAPT.Lib.BigEndian

/-! `getNtpTime`, which asks an NTP server for the time. -/
namespace OpenAPT.Time

/-- What the calls return: the address of a dotted quad, whether there is a socket and whether the
request can be sent, and the datagram that comes back to an address within the timeout. -/
structure NtpEnv where
  socket : Bool
  inet_pton : Bytes → Option UInt32
  sendto : UInt32 → Bytes → Bool
  recvfrom : UInt32 → Bytes → Option Bytes

def NTP_PACKET_SIZE : ℕ := 48

/-- The request. -/
def packetBuffer : Bytes :=
  [0xE3, 0, 6, 0xEC, 0, 0, 0, 0, 0, 0, 0, 0, 49, 0x4E, 49, 52] ++ List.replicate 32 0

/-- The buffer of the request once the datagram is in it. -/
def received (datagram : Bytes) : Bytes :=
  datagram.take NTP_PACKET_SIZE ++ packetBuffer.drop datagram.length

def shiftIn (timestamp : UInt64) (byte : UInt8) : UInt64 := timestamp <<< 8 ||| byte.toUInt64

/-- The loop over the bytes 40 to 43, the first half of the transmit timestamp. -/
def timestamp (packetBuffer : Bytes) : UInt64 := ((packetBuffer.drop 40).take 4).foldl shiftIn 0

/-- The address stays zero where `hostname` is not a dotted quad: `inet_pton` is not checked. -/
def serverAddr (e : NtpEnv) (hostname : Bytes) : UInt32 := (e.inet_pton hostname).getD 0

def getNtpTime (e : NtpEnv) (hostname : Bytes) : Int64 :=
  if !e.socket then 0
  else if !e.sendto (serverAddr e hostname) packetBuffer then 0
  else
    match e.recvfrom (serverAddr e hostname) packetBuffer with
    | none => 0
    -- an answer of any length is taken, from the buffer as it then is
    | some datagram => (timestamp (received datagram) - 2208988800).toInt64

/-! The number in the buffer. -/

theorem length_received (datagram : Bytes) : (received datagram).length = NTP_PACKET_SIZE := by
  have hpacket : packetBuffer.length = 48 := rfl
  rw [received, List.length_append, List.length_take, List.length_drop, hpacket, NTP_PACKET_SIZE]
  omega

/-- Shifting bytes into a word reads them as a number, as long as they fit. -/
theorem toNat_foldl_shift {bs : Bytes} (h : bs.length ≤ 8) :
    (bs.foldl shiftIn 0).toNat = BigEndian.value bs := by
  induction bs using List.reverseRecOn with
  | nil => rfl
  | append_singleton bs b ih =>
    rw [List.length_append, List.length_singleton] at h
    have hbefore := ih (Nat.le_of_succ_le h)
    -- the byte that is shifted out is zero
    have hsmall : BigEndian.value bs * 256 < 2 ^ 64 := by
      calc BigEndian.value bs * 256
          < 256 ^ bs.length * 256 := Nat.mul_lt_mul_of_pos_right (BigEndian.value_lt bs) (by decide)
        _ = 256 ^ (bs.length + 1) := (Nat.pow_succ _ _).symm
        _ ≤ 256 ^ 8 := Nat.pow_le_pow_right (by decide) h
        _ = 2 ^ 64 := by decide
    rw [List.foldl_append, List.foldl_cons, List.foldl_nil, shiftIn, UInt64.toNat_or,
      UInt64.toNat_shiftLeft, hbefore, BigEndian.value_concat, ← BigEndian.shiftLeft_or]
    have hshift : BigEndian.value bs <<< 8 % 2 ^ 64 = BigEndian.value bs <<< 8 := by
      apply Nat.mod_eq_of_lt
      rwa [Nat.shiftLeft_eq]
    exact congrArg (· ||| b.toNat) hshift

/-- The seconds from 1900 to a datagram's transmit time. -/
def transmitted (datagram : Bytes) : ℕ := BigEndian.value (((received datagram).drop 40).take 4)

theorem transmitted_lt (datagram : Bytes) : transmitted datagram < 2 ^ 32 := by
  have hlength : (((received datagram).drop 40).take 4).length = 4 := by
    rw [List.length_take, List.length_drop, length_received]
    rfl
  have hlt := BigEndian.value_lt (((received datagram).drop 40).take 4)
  rw [hlength] at hlt
  exact hlt

theorem toNat_timestamp (datagram : Bytes) :
    (timestamp (received datagram)).toNat = transmitted datagram := by
  refine toNat_foldl_shift ?_
  rw [List.length_take]
  omega

/-- The difference may be negative, as a `time_t` is. -/
theorem toInt_sub (x : UInt64) (h : x.toNat < 2 ^ 32) :
    (x - 2208988800).toInt64.toInt = x.toNat - 2208988800 := by
  have hx : x.toInt64.toInt = x.toNat := BitVec.toInt_eq_toNat_of_lt (by
    have htwice : 2 * x.toNat < 2 ^ 64 := by omega
    exact htwice)
  have hepoch : (2208988800 : UInt64).toInt64.toInt = 2208988800 := by decide
  rw [UInt64.toInt64_sub, Int64.toInt_sub, hx, hepoch]
  exact Int.bmod_eq_of_le (by omega) (by omega)

/-- The value of a call that gets an answer. -/
theorem toInt_getNtpTime {e : NtpEnv} {hostname datagram : Bytes} (hsocket : e.socket = true)
    (hsend : e.sendto (serverAddr e hostname) packetBuffer = true)
    (hanswer : e.recvfrom (serverAddr e hostname) packetBuffer = some datagram) :
    (getNtpTime e hostname).toInt = transmitted datagram - 2208988800 := by
  have hlt : (timestamp (received datagram)).toNat < 2 ^ 32 := by
    rw [toNat_timestamp]
    exact transmitted_lt datagram
  rw [getNtpTime, hsocket, hsend, hanswer, ← toNat_timestamp]
  exact toInt_sub _ hlt

/-! ### Servers -/

/-- The first half of the timestamp of a server's clock, given in seconds from 1970. -/
def ntpSeconds (clock : ℤ) : Bytes := BigEndian.bytes 4 ((clock + 2208988800) % 2 ^ 32).toNat

/-- The era of a time: era 0 began in 1900, era 1 begins in 2036. -/
def era (clock : ℤ) : ℤ := (clock + 2208988800) / 2 ^ 32

/-- The answers of a server whose clock shows `clock`: whatever else is in them, from the byte 40 on
they hold its time. -/
def Tells (clock : ℤ) (datagram : Bytes) : Prop :=
  ∃ header rest : Bytes, header.length = 40 ∧ datagram = header ++ ntpSeconds clock ++ rest

theorem received_of_header {header seconds rest : Bytes} (hheader : header.length = 40)
    (hseconds : seconds.length = 4) : ∃ others,
    received (header ++ seconds ++ rest) = header ++ (seconds ++ others) := by
  -- of the rest four bytes fit, and what the datagram leaves free keeps the request
  refine ⟨rest.take 4 ++ packetBuffer.drop (header ++ seconds ++ rest).length, ?_⟩
  have hlength : (header ++ seconds).length = 44 := by
    rw [List.length_append, hheader, hseconds]
  have htake : (header ++ seconds ++ rest).take NTP_PACKET_SIZE =
      header ++ seconds ++ rest.take 4 := by
    rw [List.take_append, hlength, List.take_of_length_le (by rw [hlength]; decide)]
    rfl
  rw [received, htake, List.append_assoc, List.append_assoc]

theorem transmitted_of_tells {clock : ℤ} {datagram : Bytes} (h : Tells clock datagram) :
    (transmitted datagram : ℤ) = (clock + 2208988800) % 2 ^ 32 := by
  obtain ⟨header, rest, hheader, rfl⟩ := h
  have hseconds : (ntpSeconds clock).length = 4 := BigEndian.length_bytes 4 _
  obtain ⟨others, hreceived⟩ := @received_of_header _ _ rest hheader hseconds
  rw [transmitted, hreceived, List.drop_left' hheader, List.take_left' hseconds, ntpSeconds,
    BigEndian.value_bytes]
  have hpow : 256 ^ 4 = 2 ^ 32 := by decide
  have hnonneg := Int.emod_nonneg (clock + 2208988800) (b := 2 ^ 32) (by decide)
  have hlt := Int.emod_lt_of_pos (clock + 2208988800) (b := 2 ^ 32) (by decide)
  rw [hpow, Nat.mod_eq_of_lt (by omega), Int.toNat_of_nonneg hnonneg]

/-- A server that tells its time is understood up to whole eras: what `getNtpTime` returns is the
time of its clock exactly if that lies between 1900 and 2036, and else it is off by 136 years for
every era. -/
theorem getNtpTime_of_server (e : NtpEnv) (hostname datagram : Bytes) (clock : ℤ)
    (hsocket : e.socket = true)
    (hsend : e.sendto (serverAddr e hostname) packetBuffer = true)
    (hanswer : e.recvfrom (serverAddr e hostname) packetBuffer = some datagram)
    (htells : Tells clock datagram) :
    (getNtpTime e hostname).toInt = clock - 2 ^ 32 * era clock ∧
      ((getNtpTime e hostname).toInt = clock ↔
        -2208988800 ≤ clock ∧ clock < 2 ^ 32 - 2208988800) := by
  have hvalue := toInt_getNtpTime hsocket hsend hanswer
  rw [transmitted_of_tells htells] at hvalue
  -- the remainder that is sent drops the eras
  have hera := Int.emod_def (clock + 2208988800) (2 ^ 32)
  unfold era
  omega

/-- A server in the year 2040. -/
def laterServer : NtpEnv where
  socket := true
  inet_pton _ := none
  sendto _ _ := true
  recvfrom _ _ := some (List.replicate 40 0x24 ++ ntpSeconds 2208988800 ++ List.replicate 4 0)

theorem getNtpTime_of_server_later :
    (getNtpTime laterServer (bytes "time.example.org")).toInt = 2208988800 - 2 ^ 32 := by
  have hera : era 2208988800 = 1 := by decide
  have hserver := getNtpTime_of_server laterServer (bytes "time.example.org") _ 2208988800 rfl rfl
    rfl ⟨List.replicate 40 0x24, List.replicate 4 0, List.length_replicate, rfl⟩
  rw [hserver.1, hera, Int.mul_one]

end OpenAPT.Time
