import NetBox.Sftp.Receive

/-! # Receiving without waiting

`ReceivePacket` with `TryOnly` is meant to leave a reserved response alone
when its answer is not there: nothing raised, the reservation kept, and the
capacity zero that tells the queue to put the request back to its head. The
packet is set back by assigning `TSFTPPacket(SSH_FXP_NONE, FCodePage)` to it.
That constructor makes a packet with a type and a number, which is not empty.
-/
namespace NetBox.Sftp.Polling
open Lib.Bytes Sftp.FileSystem

variable {fs fs' : FileSystem} {p : PacketId} {reservation r : Option Nat} {expectedType : Int}
  {tryOnly : Bool}

/-- The response is as it was before the call: it waits for its answer. -/
structure LeftAlone (p : PacketId) (result : Except Stop UInt32 × FileSystem) : Prop where
  quiet : ∃ code, result.1 = .ok code
  reserved : some p ∈ result.2.reservations
  notReceived : (result.2.packets p).capacity = 0

theorem passOn_false (h : fs.passOn p reservation = (.ok (false, r), fs')) : fs' = fs := by
  unfold passOn at h
  repeat' split at h
  all_goals cases h
  rfl

/-- A pass that ends the loop leaves a packet that counts as received. -/
theorem receiveOnce_received
    (h : fs.receiveOnce p reservation expectedType tryOnly = (.ok (false, r), fs')) :
    (fs'.packets p).capacity ≠ 0 := by
  unfold receiveOnce at h
  split at h
  · cases h
  · -- nothing to read: the packet was set back
    split at h
    · cases h
    · next hreset =>
      cases h
      simp only [resetPacket, Prod.mk.injEq] at hreset
      obtain ⟨hnone, rfl⟩ := hreset
      rcases (fs.packets p).assign_spec (Packet.ofType sshFxpNone fs.codePage fs.messageCounter).1 with
        ⟨-, -, hcap⟩ | ⟨hfail, -⟩
      · simpa [setPacket] using hcap
      · exact absurd hnone hfail
  · obtain ⟨wire, packet, hfs, -, hcap⟩ := fs.readPacket_spec p expectedType
    rcases hread : fs.readPacket p expectedType with ⟨_ | _, fs₁⟩ <;> rw [hread] at hfs hcap h
    · cases h
    · have hfs : fs₁ = { fs with wire }.setPacket p packet := hfs
      have hread : (fs₁.packets p).capacity ≠ 0 := by
        rw [hfs, setPacket_self]
        exact hcap rfl
      simp only at h
      split at h
      · rwa [passOn_false h]
      · cases h
        exact hread

theorem receiveLoop_received {fuel : Nat}
    (h : receiveLoop fuel fs p reservation expectedType tryOnly = (.ok r, fs')) :
    (fs'.packets p).capacity ≠ 0 := by
  induction fuel generalizing fs reservation with
  | zero => cases h
  | succ fuel ih =>
    rw [receiveLoop] at h
    split at h
    · cases h
    · exact ih h
    · next honce =>
      cases h
      exact receiveOnce_received honce

theorem awaitPacket_received (h : fs.awaitPacket p expectedType tryOnly = (.ok r, fs')) :
    (fs'.packets p).capacity ≠ 0 := by
  simp only [awaitPacket] at h
  split at h
  · exact receiveLoop_received h
  · next hcond =>
    cases h
    exact fun hc => hcond (.inr hc)

theorem finishReceive_capacity (h : (fs.packets p).capacity ≠ 0) (allowStatus : Int) :
    ((fs.finishReceive p reservation expectedType allowStatus tryOnly).2.packets p).capacity ≠ 0 := by
  rw [finishReceive, if_neg fun hc => h hc.1]
  obtain ⟨_, hgive⟩ := giveUp_packets fs reservation p
  obtain ⟨_, hcheck⟩ :=
    checkType_packet ((fs.giveUp reservation).packets p) expectedType allowStatus
  simp only [setPacket_self]
  rw [hcheck, hgive]
  exact h

/-- A call that does not wait never leaves its response alone. When the
answer is not there, the response is made a packet of type `SSH_FXP_NONE` with a
number of its own: its reservation is removed, and its type and number are
taken for an answer. -/
theorem tryOnly_not_left_alone (fs : FileSystem) (p : PacketId) (expectedType allowStatus : Int) :
    ¬ LeftAlone p (fs.receivePacket p expectedType allowStatus true) := by
  intro ⟨⟨code, hok⟩, _, hcap⟩
  rcases fs.receivePacket_cases p expectedType allowStatus true with
    ⟨_, _, -, hr⟩ | ⟨r, fs', hawait, hr⟩ <;> rw [hr] at hok hcap
  · cases hok
  · exact finishReceive_capacity (awaitPacket_received hawait) allowStatus hcap

def sampleFileSystem : FileSystem :=
  { packets := fun _ => { Packet.init 65001 with reservedBy := true }
    reservations := [some 0, some 1]
    numbers := [0x105, 0x205]
    wire := frame [101, 0, 0, 2, 5, 0, 0, 0, 0] }

/-- The answer of the second request is there and is stored. The call for the
first one raises an error about the type 0 and its reservation is gone. -/
theorem tryOnly_raises :
    (sampleFileSystem.receivePacket 0 sshFxpStatus (-1) true).1 =
        .error (.failed (.invalidType 0)) ∧
      (sampleFileSystem.receivePacket 0 sshFxpStatus (-1) true).2.reservations = [some 1] ∧
      ((sampleFileSystem.receivePacket 0 sshFxpStatus (-1) true).2.packets 0).capacity = 261 ∧
      ((sampleFileSystem.receivePacket 0 sshFxpStatus (-1) true).2.packets 1).data =
        [101, 0, 0, 2, 5, 0, 0, 0, 0] := by
  decide +kernel

end NetBox.Sftp.Polling
