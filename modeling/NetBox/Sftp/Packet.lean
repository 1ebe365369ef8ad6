import Mathlib.Algebra.Group.Nat.Defs
import NetBox.Lib.Bytes

/-! # SFTP packets

`TSFTPPacket`: a buffer with a capacity, a position up to which it was read,
and the type and message number found at its beginning. A capacity of zero
marks a response that was not received yet. One file system is modelled, so
the back pointer `FReservedBy` is a flag.
-/
namespace NetBox.Sftp
open Lib.Bytes List

def sshFxpNone : Int := 0
def sshFxpInit : Int := 1
def sshFxpVersion : Int := 2
def sshFxpStatus : Int := 101

def sshFxOk : UInt32 := 0
def sftpMaxPacketLen : Int := 1000 * 1024
def sftpPacketAllocDelta : Nat := 256
def sftpNoMessageNumber : UInt32 := 0xFFFFFFFF

def asNo : Int := 0
def asOK : Int := 1

/-- What the calls raise, with the data their messages are made from. -/
inductive Failure
  | packetError (position size length : Nat)
  | packetTooBig (length limit : Int) (explain : Option (List UInt8))
  | invalidType (type : Int)
  | messageNumber (received expected : UInt32)
  | status (code : UInt32)
deriving DecidableEq, Repr

structure Packet where
  data : List UInt8 := []
  capacity : Nat := 0
  position : Nat := 0
  type : Int := -1
  messageNumber : UInt32 := sftpNoMessageNumber
  reservedBy : Bool := false
  codePage : UInt32
  /-- The buffer holds what is in it. -/
  fits : data.length ≤ capacity := by exact Nat.zero_le _
deriving DecidableEq

namespace Packet

/-- The packet a constructor begins with. -/
def init (codePage : UInt32) : Packet where
  codePage

/-- `FSendPrefixLen`, the bytes in front of the data that a sent packet needs. -/
def sendPrefixLen : Nat := 4

/-- The size that `SetCapacity` calls `calloc` with, a sum of 32 bits. -/
def allocated (capacity : Nat) : Nat :=
  if capacity > 0 then (capacity + sendPrefixLen) % 2 ^ 32 else 0

/-- The bytes of data that fit into a buffer of this capacity. -/
def room (capacity : Nat) : Nat := allocated capacity - sendPrefixLen

/-- Setting the capacity it has changes nothing, as nothing is cut off then. What the buffer
has room for is looked at when it is written to. -/
def setCapacity (p : Packet) (capacity : Nat) : Packet :=
  { p with data := p.data.take capacity, capacity, fits := length_take_le _ _ }

def add (p : Packet) (bytes : List UInt8) : Packet :=
  if h : p.data.length + bytes.length > p.capacity then
    { p with
      data := p.data ++ bytes
      capacity := p.data.length + bytes.length + sftpPacketAllocDelta
      fits := by simp }
  else { p with data := p.data ++ bytes, fits := by simpa using h }

/-- `AssignNumber` takes the next number of the counter all packets share. -/
def assignNumber (p : Packet) (messageCounter : UInt32) : Packet × UInt32 :=
  ({ p with messageNumber := (messageCounter <<< 8) + UInt32.ofInt p.type }, messageCounter + 1)

def changeType (p : Packet) (type : Int) (messageCounter : UInt32) : Packet × UInt32 :=
  let p := { p with position := 0, data := [], capacity := 0, type, fits := Nat.le_refl _ }
  let p := p.add [UInt8.ofInt type]
  if type ≠ sshFxpInit then
    let (p, messageCounter) := p.assignNumber messageCounter
    (p.add (put32 p.messageNumber), messageCounter)
  else (p, messageCounter)

/-- The constructor that takes a type. -/
def ofType (type : Int) (codePage messageCounter : UInt32) : Packet × UInt32 :=
  changeType (init codePage) type messageCounter

def short (p : Packet) (size : Nat) : Failure :=
  .packetError p.position size p.data.length

def getByte (p : Packet) : Except Failure (UInt8 × Packet) :=
  match p.data.drop p.position with
  | a :: _ => .ok (a, { p with position := p.position + 1 })
  | _ => .error (p.short 1)

def getCardinal (p : Packet) : Except Failure (UInt32 × Packet) :=
  match p.data.drop p.position with
  | a :: b :: c :: d :: _ => .ok (get32 a b c d, { p with position := p.position + 4 })
  | _ => .error (p.short 4)

/-- `DataUpdated`, called when the buffer was filled from outside: reads the
type and the message number. -/
def dataUpdated (p : Packet) : Option Failure × Packet :=
  let p := { p with position := 0 }
  match p.getByte with
  | .error e => (some e, p)
  | .ok (type, p) =>
    let p := { p with type := type.toNat }
    if p.type ≠ sshFxpVersion then
      match p.getCardinal with
      | .error e => (some e, p)
      | .ok (number, p) => (none, { p with messageNumber := number })
    else (none, { p with messageNumber := sftpNoMessageNumber })

/-- `operator =` between two different packets. -/
def assign (p source : Packet) : Option Failure × Packet :=
  match ((p.setCapacity 0).add source.data).dataUpdated with
  | (some e, p) => (some e, p)
  | (none, p) =>
    (none, { p with
      position := source.position, reservedBy := source.reservedBy, codePage := source.codePage })

/-- The packet after `SetCapacity` and `Receive` have put a message into it. -/
def fill (p : Packet) (bytes : List UInt8) : Packet :=
  { p with data := bytes, capacity := bytes.length, fits := Nat.le_refl _ }

end Packet

/-! ## Answers of the server -/

/-- An answer to a request that has a number: every type but the one of the
answer to `SSH_FXP_INIT`, and no more bytes than a packet may have. -/
structure Answer where
  number : UInt32
  type : UInt8
  body : List UInt8
  numbered : (type.toNat : Int) ≠ sshFxpVersion
  small : (5 + body.length : Int) ≤ sftpMaxPacketLen

def Answer.bytes (a : Answer) : List UInt8 :=
  a.type :: (put32 a.number ++ a.body)

theorem Answer.bytes_length (a : Answer) : a.bytes.length = 5 + a.body.length := by
  simp [bytes, put32]
  omega

namespace Packet

/-- The packet after an answer was received into it. -/
def received (p : Packet) (a : Answer) : Packet :=
  { p.fill a.bytes with position := 5, type := a.type.toNat, messageNumber := a.number }

/-- The packet was received and is the answer, read up to its number. -/
structure Holds (p : Packet) (a : Answer) : Prop where
  nonempty : p.capacity ≠ 0
  data : p.data = a.bytes
  type : p.type = a.type.toNat
  number : p.messageNumber = a.number
  position : p.position = 5

theorem getByte_spec (p : Packet) : (∃ e, p.getByte = .error e) ∨
    ∃ v, p.getByte = .ok (v, { p with position := p.position + 1 }) ∧ p.data ≠ [] := by
  unfold getByte
  split
  · next hd => exact .inr ⟨_, rfl, fun he => by simp [he] at hd⟩
  · exact .inl ⟨_, rfl⟩

theorem getCardinal_spec (p : Packet) : (∃ e, p.getCardinal = .error e) ∨
    ∃ v, p.getCardinal = .ok (v, { p with position := p.position + 4 }) := by
  unfold getCardinal
  split
  · exact .inr ⟨_, rfl⟩
  · exact .inl ⟨_, rfl⟩

/-- Reading type and number changes nothing else, and needs a byte at least. -/
theorem dataUpdated_spec (p : Packet) : ∃ failure position type messageNumber,
    p.dataUpdated = (failure, { p with position, type, messageNumber }) ∧
      (failure = none → p.data ≠ []) := by
  unfold dataUpdated
  rcases getByte_spec { p with position := 0 } with ⟨e, he⟩ | ⟨type, ht, hne⟩
  · simp only [he]
    exact ⟨_, _, _, _, rfl, by simp⟩
  · simp only [ht]
    split
    · rcases getCardinal_spec { p with position := 0 + 1, type := type.toNat } with ⟨e, he⟩ | ⟨v, hv⟩
      · simp only [he]
        exact ⟨_, _, _, _, rfl, by simp⟩
      · simp only [hv]
        exact ⟨_, _, _, _, rfl, fun _ => hne⟩
    · exact ⟨_, _, _, _, rfl, fun _ => hne⟩

theorem dataUpdated_answer {p : Packet} {a : Answer} (h : p.data = a.bytes) :
    p.dataUpdated =
      (none, { p with position := 5, type := a.type.toNat, messageNumber := a.number }) := by
  have ht := a.numbered
  simp only [dataUpdated, getByte, getCardinal, h, Answer.bytes, put32, cons_append,
    nil_append, drop_zero, drop_succ_cons, get32_put32, ne_eq, ht, not_false_eq_true,
    if_true]

theorem add_empty (p : Packet) (bytes : List UInt8) :
    ((p.setCapacity 0).add bytes).data = bytes := by
  unfold add setCapacity
  split <;> simp

theorem add_empty_capacity (p : Packet) {bytes : List UInt8} (h : bytes ≠ []) :
    ((p.setCapacity 0).add bytes).capacity ≠ 0 := by
  have := length_pos_iff.mpr h
  unfold add setCapacity
  rw [dif_pos (by simpa using this)]
  simp [sftpPacketAllocDelta]

/-- An assignment that works copies the back pointer and leaves a packet that
was received. One that fails leaves the back pointer as it was. -/
theorem assign_spec (p source : Packet) :
    ((p.assign source).1 = none ∧ (p.assign source).2.reservedBy = source.reservedBy ∧
      (p.assign source).2.capacity ≠ 0) ∨
    ((p.assign source).1 ≠ none ∧ (p.assign source).2.reservedBy = p.reservedBy) := by
  have hkeep : ((p.setCapacity 0).add source.data).reservedBy = p.reservedBy := by
    unfold add
    split <;> rfl
  obtain ⟨failure, position, type, number, hd, hne⟩ :=
    ((p.setCapacity 0).add source.data).dataUpdated_spec
  rw [Packet.assign, hd]
  cases failure with
  | none =>
    rw [add_empty] at hne
    exact .inl ⟨rfl, rfl, add_empty_capacity p (hne rfl)⟩
  | some e => exact .inr ⟨by simp, hkeep⟩

theorem Holds.assign {p source : Packet} {a : Answer} (h : source.Holds a) :
    (p.assign source).1 = none ∧ (p.assign source).2.Holds a ∧
      (p.assign source).2.reservedBy = source.reservedBy := by
  have hdata : ((p.setCapacity 0).add source.data).data = a.bytes := (add_empty p _).trans h.data
  have hne : source.data ≠ [] := by rw [h.data]; simp [Answer.bytes]
  rw [Packet.assign, dataUpdated_answer hdata]
  exact ⟨rfl, ⟨add_empty_capacity p hne, hdata, rfl, rfl, h.position⟩, rfl⟩

theorem holds_received (p : Packet) (a : Answer) : (p.received a).Holds a := by
  refine ⟨?_, rfl, rfl, rfl, rfl⟩
  simp [Packet.received, fill, a.bytes_length]

end Packet

end NetBox.Sftp
