import NetBox.Sftp.Packet
import NetBox.Lib.Slots
import Mathlib.Logic.Function.Basic
import Mathlib.Algebra.Group.Nat.Defs
import Mathlib.Algebra.Group.Int.Defs

/-! # Reserving and receiving responses

`TSFTPFileSystem` sends requests ahead and receives the responses later. For
each response it will not receive at once it keeps a reservation: the packet
that waits for it, or null when nobody does, and the number of the request.
`ReceivePacket` reads messages until its own comes, stores those of others in
the packets they are reserved with and drops those nobody waits for.

Logging is left out, and with it `FNotLoggedRequests`.
-/
namespace NetBox.Sftp
open Lib.Bytes Lib.Slots List

/-- A packet by its address. -/
abbrev PacketId := Nat

/-- Why a call does not return. -/
inductive Stop
  /-- The connection has not delivered enough bytes yet. -/
  | blocked
  /-- A length prefix is negative as a signed number and passed the limit. -/
  | negative (length : Int)
  /-- A packet is written to after its destruction. -/
  | dangling (p : PacketId)
  /-- The item before the first of the reservations is removed. -/
  | outOfRange
  | failed (failure : Failure)
deriving DecidableEq, Repr

structure FileSystem where
  packets : PacketId → Packet
  /-- The packets that were not destroyed. -/
  live : PacketId → Bool := fun _ => true
  /-- `FPacketReservations` -/
  reservations : List (Option PacketId) := []
  /-- `FPacketNumbers` -/
  numbers : List UInt32 := []
  /-- What the server has sent and was not read yet. -/
  wire : List UInt8 := []
  messageCounter : UInt32 := 0
  codePage : UInt32 := 0

namespace FileSystem

def setPacket (fs : FileSystem) (p : PacketId) (packet : Packet) : FileSystem :=
  { fs with packets := Function.update fs.packets p packet }

def indexOf (fs : FileSystem) (p : PacketId) : Option Nat :=
  fs.reservations.idxOf? (some p)

/-- Both arrays side by side, as far as there are reservations. -/
def slots (fs : FileSystem) : List (UInt32 × Option PacketId) :=
  fs.numbers.zip fs.reservations

def removeReservation (fs : FileSystem) (reservation : Nat) : FileSystem :=
  { fs with
    numbers := shiftDown fs.numbers reservation fs.reservations.length
    packets :=
      match fs.reservations[reservation]? with
      | some (some p) => Function.update fs.packets p { fs.packets p with reservedBy := false }
      | _ => fs.packets
    reservations := fs.reservations.eraseIdx reservation }

/-- `ReserveResponse` for the request with this number. -/
def reserveResponse (fs : FileSystem) (number : UInt32) (response : Option PacketId) : FileSystem :=
  let fs :=
    match response with
    | some p => fs.setPacket p { (fs.packets p).setCapacity 0 with reservedBy := true }
    | none => fs
  { fs with
    reservations := fs.reservations ++ [response]
    numbers := putLast fs.numbers (fs.reservations.length + 1) number }

/-- The length is stored in a signed variable. -/
def packetLength (a b c d : UInt8) (expectedType : Int) : Except Failure Int :=
  let length := (get32 a b c d).toInt32.toInt
  if length > sftpMaxPacketLen then
    .error (.packetTooBig length sftpMaxPacketLen
      (if expectedType = sshFxpVersion then some [a, b, c, d] else none))
  else .ok length

/-- `PeekPacket`: a whole message is there. A negative number of bytes is an
enormous one for `Peek`. -/
def peekPacket (fs : FileSystem) : Except Failure Bool :=
  match fs.wire with
  | a :: b :: c :: d :: _ =>
    match packetLength a b c d (-1) with
    | .error e => .error e
    | .ok length => .ok (decide (0 ≤ 4 + length ∧ 4 + length ≤ fs.wire.length))
  | _ => .ok false

/-- Receives one message into a packet. -/
def readPacket (fs : FileSystem) (p : PacketId) (expectedType : Int) :
    Except Stop Unit × FileSystem :=
  match fs.wire with
  | a :: b :: c :: d :: rest =>
    match packetLength a b c d expectedType with
    | .error e => (.error (.failed e), { fs with wire := rest })
    | .ok length =>
      if length < 0 then (.error (.negative length), { fs with wire := rest })
      else if rest.length < length.toNat then (.error .blocked, fs)
      else
        let fs := { fs with wire := rest.drop length.toNat }
        match ((fs.packets p).fill (rest.take length.toNat)).dataUpdated with
        | (some e, packet) => (.error (.failed e), fs.setPacket p packet)
        | (none, packet) => (.ok (), fs.setPacket p packet)
  | _ => (.error .blocked, fs)

/-- What was read into `p` goes to the first reservation with its number. The
result says whether there was one, and the position of the reservation of `p`
after that. -/
def passOn (fs : FileSystem) (p : PacketId) (reservation : Option Nat) :
    Except Stop (Bool × Option Nat) × FileSystem :=
  match fs.slots.findIdx? (fun slot => slot.1 == (fs.packets p).messageNumber) with
  | none => (.ok (false, reservation), fs)
  | some index =>
    match fs.reservations[index]? with
    | some (some q) =>
      if q = p then (.ok (true, reservation), fs)
      else if fs.live q then
        match (fs.packets q).assign (fs.packets p) with
        | (some e, packet) => (.error (.failed e), fs.setPacket q packet)
        | (none, packet) => (.ok (true, reservation), fs.setPacket q packet)
      else (.error (.dangling q), fs)
    | _ =>
      (.ok (true, reservation.map fun r => if index < r then r - 1 else r),
        fs.removeReservation index)

/-- The packet is set back when nothing more can be read at once. -/
def resetPacket (fs : FileSystem) (p : PacketId) : Option Failure × FileSystem :=
  let (source, messageCounter) := Packet.ofType sshFxpNone fs.codePage fs.messageCounter
  let (failure, packet) := (fs.packets p).assign source
  (failure, { fs.setPacket p packet with messageCounter })

/-- One pass of the loop of `ReceivePacket`, with `IsReserved` as its result. -/
def receiveOnce (fs : FileSystem) (p : PacketId) (reservation : Option Nat) (expectedType : Int)
    (tryOnly : Bool) : Except Stop (Bool × Option Nat) × FileSystem :=
  match if tryOnly then fs.peekPacket else .ok true with
  | .error e => (.error (.failed e), fs)
  | .ok false =>
    match fs.resetPacket p with
    | (some e, fs) => (.error (.failed e), fs)
    | (none, fs) => (.ok (false, reservation), fs)
  | .ok true =>
    match fs.readPacket p expectedType with
    | (.error s, fs) => (.error s, fs)
    | (.ok (), fs) =>
      if reservation.bind (fs.numbers[·]?) ≠ some (fs.packets p).messageNumber then
        fs.passOn p reservation
      else (.ok (false, reservation), fs)

/-- The loop of `ReceivePacket`. Every pass but the last takes a message off
the wire. -/
def receiveLoop : Nat → FileSystem → PacketId → Option Nat → Int → Bool →
    Except Stop (Option Nat) × FileSystem
  | 0, fs, _, _, _, _ => (.error .blocked, fs)
  | fuel + 1, fs, p, reservation, expectedType, tryOnly =>
    match fs.receiveOnce p reservation expectedType tryOnly with
    | (.error s, fs) => (.error s, fs)
    | (.ok (true, reservation), fs) => receiveLoop fuel fs p reservation expectedType tryOnly
    | (.ok (false, reservation), fs) => (.ok reservation, fs)

/-- `0x01LL << Code`. The count of a shift of 64 bits is taken modulo 64, also
when the code is negative as a signed number. -/
def statusBit (code : UInt32) : BitVec 64 :=
  1#64 <<< (code.toNat % 64)

/-- `GotStatusPacket`, up to the texts of its error. -/
def gotStatusPacket (packet : Packet) (allowStatus : Int) : Except Failure UInt32 × Packet :=
  match packet.getCardinal with
  | .error e => (.error e, packet)
  | .ok (code, packet) =>
    if BitVec.ofInt 64 allowStatus &&& statusBit code = 0 then (.error (.status code), packet)
    else (.ok code, packet)

/-- The type of a response is the expected one, or it is a status that is
allowed. -/
def checkType (packet : Packet) (expectedType allowStatus : Int) : Except Failure UInt32 × Packet :=
  if expectedType = -1 then (.ok sshFxOk, packet)
  else if packet.type = sshFxpStatus then
    gotStatusPacket packet
      (if allowStatus < 0 then (if expectedType = sshFxpStatus then asOK else asNo) else allowStatus)
  else if expectedType ≠ packet.type then (.error (.invalidType packet.type), packet)
  else (.ok sshFxOk, packet)

/-- The reservation of a packet that has one is removed. -/
def giveUp (fs : FileSystem) : Option Nat → FileSystem
  | some r => fs.removeReservation r
  | none => fs

/-- The end of `ReceivePacket`: the reservation is given up before the type is
checked. -/
def finishReceive (fs : FileSystem) (p : PacketId) (reservation : Option Nat)
    (expectedType allowStatus : Int) (tryOnly : Bool) : Except Stop UInt32 × FileSystem :=
  if (fs.packets p).capacity = 0 ∧ tryOnly = true then (.ok sshFxOk, fs)
  else
    let fs := fs.giveUp reservation
    let (result, packet) := checkType (fs.packets p) expectedType allowStatus
    (result.mapError .failed, fs.setPacket p packet)

/-- Reads until the response is there, unless it was stored before. -/
def awaitPacket (fs : FileSystem) (p : PacketId) (expectedType : Int) (tryOnly : Bool) :
    Except Stop (Option Nat) × FileSystem :=
  let reservation := fs.indexOf p
  if reservation = none ∨ (fs.packets p).capacity = 0 then
    receiveLoop (fs.wire.length + 1) fs p reservation expectedType tryOnly
  else (.ok reservation, fs)

def receivePacket (fs : FileSystem) (p : PacketId) (expectedType allowStatus : Int)
    (tryOnly : Bool) : Except Stop UInt32 × FileSystem :=
  match fs.awaitPacket p expectedType tryOnly with
  | (.error s, fs) => (.error s, fs)
  | (.ok reservation, fs) => fs.finishReceive p reservation expectedType allowStatus tryOnly

/-- `ReceiveResponse` for the request with this number. A null response is one
more packet that lives as long as the call. -/
def receiveResponse (fs : FileSystem) (number : UInt32) (response : PacketId)
    (expectedType allowStatus : Int) (tryOnly : Bool) : Except Stop UInt32 × FileSystem :=
  match fs.receivePacket response expectedType allowStatus tryOnly with
  | (.error s, fs) => (.error s, fs)
  | (.ok result, fs) =>
    if (fs.packets response).messageNumber ≠ number then
      (.error (.failed (.messageNumber (fs.packets response).messageNumber number)), fs)
    else (.ok result, fs)

/-! ## What the calls do -/

variable {fs : FileSystem} {p : PacketId} {a : Answer} {rest : List UInt8} {expectedType : Int}

@[simp] theorem setPacket_self (packet : Packet) : (fs.setPacket p packet).packets p = packet :=
  Function.update_self ..

theorem setPacket_of_ne (packet : Packet) {q : PacketId} (h : q ≠ p) :
    (fs.setPacket p packet).packets q = fs.packets q :=
  Function.update_of_ne h ..

theorem getElem?_of_indexOf {r : Nat} (h : fs.indexOf p = some r) :
    fs.reservations[r]? = some (some p) := by
  obtain ⟨hlt, hp, -⟩ := idxOf?_eq_some_iff.mp h
  exact hp ▸ getElem?_eq_getElem hlt

theorem slots_removeReservation {r : Nat} (hr : r < fs.reservations.length)
    (h : fs.reservations.length ≤ fs.numbers.length) :
    (fs.removeReservation r).slots = fs.slots.eraseIdx r :=
  zip_shiftDown hr h

theorem slots_reserveResponse (number : UInt32) (response : Option PacketId)
    (h : fs.reservations.length ≤ fs.numbers.length) :
    (fs.reserveResponse number response).slots = fs.slots ++ [(number, response)] := by
  cases response <;> exact zip_putLast h number _

theorem reserveResponse_room (number : UInt32) (response : Option PacketId) :
    (fs.reserveResponse number response).reservations.length ≤
      (fs.reserveResponse number response).numbers.length := by
  have h := putLast_length fs.numbers (fs.reservations.length + 1) number
  cases response <;> simpa [reserveResponse, setPacket] using h

/-- Reserving a response touches no packet but the response. -/
theorem reserveResponse_of_ne (number : UInt32) {response : Option PacketId} {q : PacketId}
    (h : response ≠ some q) : (fs.reserveResponse number response).packets q = fs.packets q := by
  cases response with
  | none => rfl
  | some p => exact setPacket_of_ne _ fun he => h (he ▸ rfl)

theorem reserveResponse_self (number : UInt32) :
    (fs.reserveResponse number (some p)).packets p =
      { (fs.packets p).setCapacity 0 with reservedBy := true } :=
  setPacket_self _

theorem reserveResponse_live (number : UInt32) (response : Option PacketId) :
    (fs.reserveResponse number response).live = fs.live := by
  cases response <;> rfl

theorem reserveResponse_wire (number : UInt32) (response : Option PacketId) :
    (fs.reserveResponse number response).wire = fs.wire := by
  cases response <;> rfl

theorem toInt32_of_lt {v : UInt32} (h : v.toNat < 2 ^ 31) : v.toInt32.toInt = v.toNat :=
  BitVec.toInt_eq_toNat_of_lt (by simpa using by omega)

theorem toInt32_of_ge {v : UInt32} (h : ¬ v.toNat < 2 ^ 31) :
    v.toInt32.toInt = v.toNat - 2 ^ 32 := by
  show v.toBitVec.toInt = _
  rw [BitVec.toInt_eq_toNat_cond, if_neg (by simpa using by omega)]
  simp

theorem packetLength_of_le {a b c d : UInt8} {expectedType : Int}
    (h : ((get32 a b c d).toNat : Int) ≤ sftpMaxPacketLen) :
    packetLength a b c d expectedType = .ok (get32 a b c d).toNat := by
  have hlt : (get32 a b c d).toNat < 2 ^ 31 := by
    simp only [sftpMaxPacketLen] at h
    omega
  rw [packetLength, toInt32_of_lt hlt, if_neg (by omega)]

theorem frame_length_toNat (a : Answer) : a.bytes.length.toUInt32.toNat = a.bytes.length := by
  have := a.small
  rw [sftpMaxPacketLen] at this
  simp only [Nat.toUInt32_eq, UInt32.toNat_ofNat']
  rw [a.bytes_length]
  omega

/-- An answer is read whole, and nothing of what comes after it. -/
theorem readPacket_answer (h : fs.wire = frame a.bytes ++ rest) :
    fs.readPacket p expectedType =
      (.ok (), { fs with wire := rest }.setPacket p ((fs.packets p).received a)) := by
  have hlen := frame_length_toNat a
  have hsmall : ((a.bytes.length : Nat) : Int) ≤ sftpMaxPacketLen := by
    rw [a.bytes_length]
    exact_mod_cast a.small
  simp only [frame, put32, cons_append, nil_append] at h
  simp only [readPacket, h]
  rw [packetLength_of_le (by rw [get32_put32, hlen]; exact hsmall), get32_put32, hlen]
  have hnat : ((a.bytes.length : Int)).toNat = a.bytes.length := Int.toNat_natCast _
  simp only [hnat]
  rw [if_neg (Int.not_lt.mpr (Int.natCast_nonneg _)), if_neg (by simp),
    take_left' rfl, drop_left' rfl, Packet.dataUpdated_answer rfl]
  rfl

/-- Removing a reservation touches no packet but the one of the reservation. -/
theorem removeReservation_of_ne {r : Nat} {q : PacketId}
    (h : fs.reservations[r]? ≠ some (some q)) :
    (fs.removeReservation r).packets q = fs.packets q := by
  rcases hr : fs.reservations[r]? with _ | _ | p <;> simp only [removeReservation, hr]
  have : q ≠ p := fun he => h (he ▸ hr)
  exact Function.update_of_ne this ..

theorem giveUp_wire (fs : FileSystem) (reservation : Option Nat) :
    (fs.giveUp reservation).wire = fs.wire := by
  cases reservation <;> rfl

theorem giveUp_live (fs : FileSystem) (reservation : Option Nat) :
    (fs.giveUp reservation).live = fs.live := by
  cases reservation <;> rfl

theorem giveUp_packets (fs : FileSystem) (reservation : Option Nat) (q : PacketId) :
    ∃ reservedBy, (fs.giveUp reservation).packets q = { fs.packets q with reservedBy } := by
  have hsame : ∃ reservedBy, fs.packets q = { fs.packets q with reservedBy } :=
    ⟨(fs.packets q).reservedBy, rfl⟩
  cases reservation with
  | none => exact hsame
  | some r =>
    rcases hr : fs.reservations[r]? with _ | _ | p <;> simp only [giveUp, removeReservation, hr]
    · exact hsame
    · exact hsame
    · by_cases hq : q = p
      · subst hq
        exact ⟨false, Function.update_self ..⟩
      · rw [Function.update_of_ne hq]
        exact hsame

theorem giveUp_room (reservation : Option Nat) (h : fs.reservations.length ≤ fs.numbers.length) :
    (fs.giveUp reservation).reservations.length ≤ (fs.giveUp reservation).numbers.length := by
  cases reservation with
  | none => exact h
  | some r =>
    simp only [giveUp, removeReservation, shiftDown_length]
    exact Nat.le_trans (length_eraseIdx_le _ _) h

/-- The check of a type reads on in the packet and keeps what is in it. -/
theorem checkType_packet (packet : Packet) (expectedType allowStatus : Int) :
    ∃ position, (checkType packet expectedType allowStatus).2 = { packet with position } := by
  have hsame : ∃ position, packet = { packet with position } := ⟨packet.position, rfl⟩
  have hstatus : ∀ allow, ∃ position, (gotStatusPacket packet allow).2 = { packet with position } := by
    intro allow
    unfold gotStatusPacket
    rcases packet.getCardinal_spec with ⟨e, he⟩ | ⟨v, hv⟩
    · simp only [he]
      exact hsame
    · simp only [hv]
      split <;> exact ⟨_, rfl⟩
  unfold checkType
  split
  · exact hsame
  split
  · exact hstatus _
  split <;> exact hsame

/-- What the check says depends on the bytes, the position and the type. -/
theorem checkType_congr {packet other : Packet} (hd : packet.data = other.data)
    (hp : packet.position = other.position) (ht : packet.type = other.type)
    (expectedType allowStatus : Int) :
    (checkType packet expectedType allowStatus).1 = (checkType other expectedType allowStatus).1 := by
  have hstatus : ∀ allow, (gotStatusPacket packet allow).1 = (gotStatusPacket other allow).1 := by
    intro allow
    simp only [gotStatusPacket, Packet.getCardinal, Packet.short, hd, hp]
    split <;> rename_i heq <;> split at heq <;> cases heq
    · rfl
    · simp only
      split <;> rfl
  unfold checkType
  rw [ht]
  split
  · rfl
  split
  · exact hstatus _
  split <;> rfl

/-- Reading a message changes the packet it is read into, not its back pointer. -/
theorem readPacket_spec (fs : FileSystem) (p : PacketId) (expectedType : Int) :
    ∃ wire packet, (fs.readPacket p expectedType).2 = { fs with wire }.setPacket p packet ∧
      packet.reservedBy = (fs.packets p).reservedBy ∧
      ((fs.readPacket p expectedType).1 = .ok () → packet.capacity ≠ 0) := by
  have hsame : ∀ wire, { fs with wire } = { fs with wire }.setPacket p (fs.packets p) := by
    intro wire
    simp [setPacket]
  unfold readPacket
  split
  · next a b c d rest _ =>
    split
    · exact ⟨_, _, hsame _, rfl, by simp⟩
    · next length _ =>
      split
      · exact ⟨_, _, hsame _, rfl, by simp⟩
      split
      · exact ⟨fs.wire, _, hsame _, rfl, by simp⟩
      obtain ⟨failure, position, type, number, hd, hne⟩ :=
        ((fs.packets p).fill (rest.take length.toNat)).dataUpdated_spec
      simp only [hd]
      cases failure with
      | none => exact ⟨_, _, rfl, rfl, fun _ => by simpa [Packet.fill] using hne rfl⟩
      | some e => exact ⟨_, _, rfl, rfl, by simp⟩
  · exact ⟨fs.wire, _, hsame _, rfl, by simp⟩

/-- The call stops while it reads, or comes to its end. -/
theorem receivePacket_cases (fs : FileSystem) (p : PacketId) (expectedType allowStatus : Int)
    (tryOnly : Bool) :
    (∃ s fs', fs.awaitPacket p expectedType tryOnly = (.error s, fs') ∧
      fs.receivePacket p expectedType allowStatus tryOnly = (.error s, fs')) ∨
    ∃ r fs', fs.awaitPacket p expectedType tryOnly = (.ok r, fs') ∧
      fs.receivePacket p expectedType allowStatus tryOnly =
        fs'.finishReceive p r expectedType allowStatus tryOnly := by
  rcases h : fs.awaitPacket p expectedType tryOnly with ⟨s | r, fs'⟩ <;> rw [receivePacket, h]
  · exact .inl ⟨s, fs', rfl, rfl⟩
  · exact .inr ⟨r, fs', rfl, rfl⟩

theorem receiveResponse_of_number {number : UInt32} {fs' : FileSystem} {allowStatus : Int}
    {tryOnly : Bool} {outcome : Except Stop UInt32}
    (h : fs.receivePacket p expectedType allowStatus tryOnly = (outcome, fs'))
    (hn : (fs'.packets p).messageNumber = number) :
    fs.receiveResponse number p expectedType allowStatus tryOnly = (outcome, fs') := by
  rw [receiveResponse, h]
  cases outcome with
  | error s => rfl
  | ok result => simp [hn]

end FileSystem

end NetBox.Sftp
