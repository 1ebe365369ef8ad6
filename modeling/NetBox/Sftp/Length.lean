import NetBox.Sftp.Receive

/-! # The length in front of a message

The prefix is read as an unsigned number, compared with the limit as a signed
one, and used as an unsigned one again: for the capacity of the packet, with
which the buffer is allocated, and for the number of bytes the connection is
asked for. What comes out of it is followed for both sizes of `size_t`.
-/
namespace NetBox.Sftp.Length
open Lib.Bytes Sftp.FileSystem

inductive SizeT
  | bits32
  | bits64

def SizeT.modulus : SizeT → Int
  | .bits32 => 2 ^ 32
  | .bits64 => 2 ^ 64

/-- `ToSizeT` -/
def toSizeT (size : SizeT) (value : Int) : Nat :=
  (value % size.modulus).toNat

def toUInt32 (value : Int) : Nat :=
  (value % 2 ^ 32).toNat

/-- The buffer `ReceivePacket` makes for a length and what it wants in it. -/
structure Buffer where
  capacity : Nat
  /-- The size `calloc` is called with. -/
  allocated : Nat
  /-- The number of bytes the connection is asked to store behind the first four. -/
  requested : Nat
deriving DecidableEq

def Buffer.room (buffer : Buffer) : Nat :=
  buffer.allocated - Packet.sendPrefixLen

def receiveBuffer (size : SizeT) (a b c d : UInt8) (expectedType : Int) : Except Failure Buffer :=
  match packetLength a b c d expectedType with
  | .error e => .error e
  | .ok length =>
    let capacity := toUInt32 length
    .ok {
      capacity
      allocated := Packet.allocated capacity
      requested := toSizeT size length }

/-- The number of bytes `PeekPacket` wants to see at once. -/
def peekSize (size : SizeT) (a b c d : UInt8) : Except Failure Nat :=
  match packetLength a b c d (-1) with
  | .error e => .error e
  | .ok length => .ok (toSizeT size (4 + length))

/-- The fatal error for a prefix that is too big. -/
def tooBig (a b c d : UInt8) (expectedType : Int) : Failure :=
  .packetTooBig (get32 a b c d).toNat sftpMaxPacketLen
    (if expectedType = sshFxpVersion then some [a, b, c, d] else none)

/-- The prefix is refused as too big, or taken as the number it is: the buffer
has that capacity, which is within the limit, and room for what is requested. -/
structure Bounded (size : SizeT) (a b c d : UInt8) (expectedType : Int) : Prop where
  receive : receiveBuffer size a b c d expectedType = .error (tooBig a b c d expectedType) ∨
    ∃ buffer, receiveBuffer size a b c d expectedType = .ok buffer ∧
      buffer.capacity = (get32 a b c d).toNat ∧ (buffer.capacity : Int) ≤ sftpMaxPacketLen ∧
      buffer.requested ≤ buffer.room
  peek : peekSize size a b c d = .error (tooBig a b c d (-1)) ∨
    peekSize size a b c d = .ok (4 + (get32 a b c d).toNat) ∧
      ((get32 a b c d).toNat : Int) ≤ sftpMaxPacketLen

variable {a b c d : UInt8}

theorem toSizeT_of_le (size : SizeT) {n : Nat} (h : (n : Int) ≤ 4 + sftpMaxPacketLen) :
    toSizeT size n = n := by
  have hlt : (n : Int) < size.modulus := by
    simp only [sftpMaxPacketLen] at h
    cases size <;> simp only [SizeT.modulus] <;> omega
  rw [toSizeT, Int.emod_eq_of_lt (by omega) hlt, Int.toNat_natCast]

/-- A prefix that is not negative as a signed number is compared as what it is. -/
theorem packetLength_of_gt (h : (get32 a b c d).toNat < 2 ^ 31)
    (hgt : ¬ ((get32 a b c d).toNat : Int) ≤ sftpMaxPacketLen) (expectedType : Int) :
    packetLength a b c d expectedType = .error (tooBig a b c d expectedType) := by
  rw [packetLength, toInt32_of_lt h, if_pos (by omega)]
  rfl

/-- A prefix that is negative as a signed number passes the limit. -/
theorem packetLength_negative (h : ¬ (get32 a b c d).toNat < 2 ^ 31) (expectedType : Int) :
    packetLength a b c d expectedType = .ok ((get32 a b c d).toNat - 2 ^ 32) := by
  have := (get32 a b c d).toNat_lt
  have hneg : ¬ ((get32 a b c d).toNat : Int) - 2 ^ 32 > sftpMaxPacketLen := by
    simp only [sftpMaxPacketLen]
    omega
  rw [packetLength, toInt32_of_ge h, if_neg hneg]

theorem receiveBuffer_of_le (size : SizeT) {expectedType : Int}
    (h : ((get32 a b c d).toNat : Int) ≤ sftpMaxPacketLen) :
    ∃ buffer, receiveBuffer size a b c d expectedType = .ok buffer ∧
      buffer.capacity = (get32 a b c d).toNat ∧ buffer.requested ≤ buffer.room := by
  rw [receiveBuffer, packetLength_of_le h]
  generalize (get32 a b c d).toNat = n at h
  have hcap : toUInt32 n = n := toSizeT_of_le .bits32 (by omega)
  have hreq : toSizeT size n = n := toSizeT_of_le size (by omega)
  refine ⟨_, rfl, hcap, ?_⟩
  simp only [Buffer.room, Packet.allocated, hcap, hreq, Packet.sendPrefixLen, sftpMaxPacketLen]
    at h ⊢
  split <;> omega

theorem peekSize_of_le (size : SizeT) (h : ((get32 a b c d).toNat : Int) ≤ sftpMaxPacketLen) :
    peekSize size a b c d = .ok (4 + (get32 a b c d).toNat) := by
  rw [peekSize, packetLength_of_le h]
  exact congrArg Except.ok (toSizeT_of_le size (n := 4 + (get32 a b c d).toNat) (by omega))

/-- A length prefix is kept within its limit exactly when it is below 2³¹.
Any larger one is negative when it is compared, passes, and becomes the capacity
of the packet. -/
theorem lengthPrefix_bounded_iff (size : SizeT) (a b c d : UInt8) (expectedType : Int) :
    Bounded size a b c d expectedType ↔ (get32 a b c d).toNat < 2 ^ 31 := by
  constructor
  · intro hb
    by_contra hbig
    rcases hb.peek with he | ⟨-, hle⟩
    · rw [peekSize, packetLength_negative hbig] at he
      cases he
    · simp only [sftpMaxPacketLen] at hle
      omega
  · intro hlt
    by_cases hle : ((get32 a b c d).toNat : Int) ≤ sftpMaxPacketLen
    · obtain ⟨buffer, hbuffer, hcap, hroom⟩ := receiveBuffer_of_le size hle
      exact ⟨.inr ⟨buffer, hbuffer, hcap, hcap ▸ hle, hroom⟩, .inr ⟨peekSize_of_le size hle, hle⟩⟩
    · refine ⟨.inl ?_, .inl ?_⟩
      · rw [receiveBuffer, packetLength_of_gt hlt hle]
      · rw [peekSize, packetLength_of_gt hlt hle]

/-- The largest prefix is taken for -1. Three bytes are allocated, and the
connection is asked for nearly 2⁶⁴. -/
theorem lengthPrefix_wraps :
    receiveBuffer .bits64 255 255 255 255 sshFxpStatus =
        .ok { capacity := 4294967295, allocated := 3, requested := 18446744073709551615 } ∧
      ¬ Bounded .bits64 255 255 255 255 sshFxpStatus := by
  refine ⟨by decide, fun hb => ?_⟩
  rcases hb.peek with he | ⟨-, hle⟩
  · cases he
  · revert hle
    decide

end NetBox.Sftp.Length
