import NetBox.Sftp.Sessions

/-! # Which status codes a call accepts

A caller of `ReceivePacket` allows status codes by a mask, in which code `c`
is bit `c`. The test of the code shifts a word of 64 bits by the number the
server has sent, so it looks at bit `c % 64`.
-/
namespace NetBox.Sftp.Status
open Lib.Bytes Lib.Run Sftp.FileSystem Sftp.Matching

/-- The mask in force: the default of a caller that gives none is `asOK` when
a status is expected and `asNo` otherwise. -/
def allowMask (expectedType allowStatus : Int) : Int :=
  if allowStatus < 0 then (if expectedType = sshFxpStatus then asOK else asNo) else allowStatus

/-- The caller has allowed the code. -/
def Allowed (expectedType allowStatus : Int) (code : UInt32) : Prop :=
  (allowMask expectedType allowStatus).toNat.testBit code.toNat = true

/-- The code is one the test tells apart from smaller ones, or the code it is
taken for is not allowed either. -/
def Told (expectedType allowStatus : Int) (code : UInt32) : Prop :=
  code.toNat < 64 ∨ (allowMask expectedType allowStatus).toNat.testBit (code.toNat % 64) = false

/-- The server has answered with this status code. -/
structure IsStatus (a : Answer) (code : UInt32) : Prop where
  type : (a.type.toNat : Int) = sshFxpStatus
  body : ∃ rest, a.body = put32 code ++ rest

variable {expectedType allowStatus : Int} {code : UInt32} {a : Answer} {fs : FileSystem}
  {s : Session} {d : Delivery}

theorem allowMask_nonneg (expectedType allowStatus : Int) :
    0 ≤ allowMask expectedType allowStatus := by
  unfold allowMask asOK asNo
  repeat' split <;> omega

theorem allowMask_lt (h : allowStatus < 2 ^ 31) : allowMask expectedType allowStatus < 2 ^ 31 := by
  unfold allowMask asOK asNo
  repeat' split <;> omega

/-- A plain status request allows success only. -/
theorem allowed_plain_iff : Allowed sshFxpStatus (-1) code ↔ code = sshFxOk := by
  have hmask : (allowMask sshFxpStatus (-1)).toNat = 1 := rfl
  rw [Allowed, hmask, Nat.testBit_one_eq_true_iff_self_eq_zero, ← UInt32.toNat_inj]
  rfl

/-- The test of the mask looks at one bit of it. -/
theorem and_statusBit {mask : Int} (h : 0 ≤ mask) (code : UInt32) :
    BitVec.ofInt 64 mask &&& statusBit code = 0 ↔ mask.toNat.testBit (code.toNat % 64) = false := by
  obtain ⟨m, rfl⟩ := Int.eq_ofNat_of_zero_le h
  have hlt : code.toNat % 64 < 64 := Nat.mod_lt _ (by decide)
  have hbit : (BitVec.ofInt 64 (m : Int)).getLsbD (code.toNat % 64) =
      m.testBit (code.toNat % 64) := by
    rw [BitVec.ofInt_natCast, BitVec.getLsbD_ofNat, decide_eq_true hlt, Bool.true_and]
  have hone : BitVec.twoPow 64 (code.toNat % 64) ≠ 0 := by
    intro hz
    have := congrArg (BitVec.getLsbD · (code.toNat % 64)) hz
    simp [hlt] at this
  rw [statusBit, ← BitVec.twoPow_eq, BitVec.and_twoPow, hbit, Int.toNat_natCast]
  cases m.testBit (code.toNat % 64) with
  | true => simpa using hone
  | false => simp

/-- The call on a status answer returns when the bit it looks at is set. -/
theorem verdict_status (h : IsStatus a code) (he : expectedType ≠ -1) :
    (∃ result, verdict a expectedType allowStatus = .ok result) ↔
      (allowMask expectedType allowStatus).toNat.testBit (code.toNat % 64) = true := by
  obtain ⟨rest, hbody⟩ := h.body
  have hcode : ((Packet.init 0).received a).getCardinal =
      .ok (code, { (Packet.init 0).received a with position := 9 }) := by
    simp [Packet.getCardinal, Packet.received, Packet.fill, Answer.bytes, hbody, put32, get32_put32]
  have htest := and_statusBit (allowMask_nonneg expectedType allowStatus) code
  have htype : ((Packet.init 0).received a).type = sshFxpStatus := h.type
  rw [verdict, checkType, if_neg he, if_pos htype, ← allowMask, gotStatusPacket, hcode]
  dsimp only
  cases hbit : (allowMask expectedType allowStatus).toNat.testBit (code.toNat % 64) with
  | true =>
    rw [if_neg (by rw [htest, hbit]; simp)]
    exact ⟨fun _ => rfl, fun _ => ⟨code, rfl⟩⟩
  | false =>
    rw [if_pos (htest.mpr hbit)]
    simp [Except.mapError]

/-- A mask of 32 bits allows no code above 31. -/
theorem not_allowed_of_le (h : allowStatus < 2 ^ 31) (hc : 64 ≤ code.toNat) :
    ¬ Allowed expectedType allowStatus code := by
  have hlt : (allowMask expectedType allowStatus).toNat < 2 ^ 31 := by
    have hmask : allowMask expectedType allowStatus < 2 ^ 31 := allowMask_lt h
    omega
  rw [Allowed, Nat.testBit_lt_two_pow]
  · simp
  · exact Nat.lt_of_lt_of_le hlt (Nat.pow_le_pow_right (by decide) (by omega))

/-- A call accepts a status only if its caller has allowed the code, exactly
when the code is below 64 or the code it is taken for is not allowed. In a
session with any requests answered in any order, the status with code `code`
is the answer to the request of delivery `d`. -/
theorem status_accepted_iff (h : Reaches step (fun _ _ => True) (start fs) s)
    (hd : d ∈ s.deliveries) (ha : a ∈ s.answers) (hn : a.number = d.number)
    (hstatus : IsStatus a code) (he : d.expectedType ≠ -1) (hmask : d.allowStatus < 2 ^ 31) :
    ((∃ result, d.outcome = .ok result) → Allowed d.expectedType d.allowStatus code) ↔
      Told d.expectedType d.allowStatus code := by
  obtain ⟨got, unread, hinv⟩ := exists_inv h
  obtain ⟨b, hb, hbn, -, -, hout⟩ := (hinv.correct d hd).answer
  have hab : b = a := List.inj_on_of_nodup_map hinv.once hb ha (hbn.trans hn.symm)
  rw [hout, hab, verdict_status hstatus he, Told]
  constructor
  · intro hallowed
    by_cases hc : code.toNat < 64
    · exact .inl hc
    · refine .inr (Bool.eq_false_iff.mpr fun hbit => ?_)
      exact not_allowed_of_le hmask (Nat.le_of_not_lt hc) (hallowed hbit)
  · intro htold hbit
    rcases htold with hc | hc
    · rwa [Nat.mod_eq_of_lt hc] at hbit
    · rw [hc] at hbit
      cases hbit

theorem status_numbered : ((101 : UInt8).toNat : Int) ≠ sshFxpVersion := by decide

theorem status_small : (5 + (put32 64).length : Int) ≤ sftpMaxPacketLen := by decide

/-- The answer to a request: the status with code 64. -/
def sampleAnswer : Answer :=
  ⟨0x10D, 101, put32 64, status_numbered, status_small⟩

def sampleActions : List Action :=
  [.send 0x10D, .answer sampleAnswer, .receive 0x10D 0 sshFxpStatus (-1)]

/-- A plain status request returns on code 64, which it does not allow. -/
theorem status_64_accepted : ∃ s, Reaches step (fun _ _ => True) (start sampleStart) s ∧
    s.deliveries.map (fun d => (d.number, d.outcome.toOption)) = [(0x10D, some 64)] ∧
    ¬ Allowed sshFxpStatus (-1) 64 := by
  have hrun : (runs step (fun _ _ => True) (start sampleStart) sampleActions).map
      (fun s => s.deliveries.map fun d => (d.number, d.outcome.toOption)) =
      some [(0x10D, some 64)] := by
    decide +kernel
  obtain ⟨s, hs, hd⟩ := exists_reaches hrun
  exact ⟨s, hs, hd, fun h => absurd (allowed_plain_iff.mp h) (by decide)⟩

theorem status_accepted_iff_sample : ∃ s, Reaches step (fun _ _ => True) (start sampleStart) s ∧
    ∃ d ∈ s.deliveries, d.number = 0x10D ∧
      (((∃ result, d.outcome = .ok result) → Allowed d.expectedType d.allowStatus 64) ↔
        Told d.expectedType d.allowStatus 64) := by
  have hrun : (runs step (fun _ _ => True) (start sampleStart) sampleActions).map
      (fun s => (s.deliveries.map fun d => (d.number, d.expectedType, d.allowStatus),
        s.answers.map fun a => (a.number, a.type, a.body))) =
      some ([(0x10D, 101, -1)], [(0x10D, 101, put32 64)]) := by
    decide +kernel
  obtain ⟨s, hs, hd⟩ := exists_reaches hrun
  obtain ⟨hdel, hans⟩ := Prod.mk.inj hd
  obtain ⟨d, hdmem, hdeq⟩ := List.mem_map.mp (hdel ▸ List.mem_singleton_self _)
  obtain ⟨a, hamem, haeq⟩ := List.mem_map.mp (hans ▸ List.mem_singleton_self _)
  simp only [Prod.mk.injEq] at hdeq haeq
  obtain ⟨hnum, htype, hmask⟩ := hdeq
  obtain ⟨hanum, hatype, habody⟩ := haeq
  have hstatus : IsStatus a 64 := ⟨by rw [hatype]; rfl, [], by rw [habody, List.append_nil]⟩
  exact ⟨s, hs, d, hdmem, hnum, status_accepted_iff hs hdmem hamem (hanum.trans hnum.symm) hstatus
    (by rw [htype]; decide) (by rw [hmask]; decide)⟩

end NetBox.Sftp.Status
