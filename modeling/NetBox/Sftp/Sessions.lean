import NetBox.Sftp.Matching

/-! # Whole sessions

What one action does to the requests that wait, and what follows for every
sequence of requests and every order of answers.
-/
namespace NetBox.Sftp.Matching
open Lib.Bytes Lib.Slots Lib.Run Sftp.FileSystem List

variable {s t : Session} {requests : List Request} {delivered : List UInt32} {n : UInt32}
  {p : PacketId} {got unread : List Answer} {fs : FileSystem} {a : Answer}

/-- The call has ended with the answer to its request, in the packet of the
request or of its caller. -/
structure Delivery.Correct (s : Session) (d : Delivery) : Prop where
  answer : ∃ a ∈ s.answers, a.number = d.number ∧ d.packet.data = a.bytes ∧
    d.packet.messageNumber = d.number ∧ d.outcome = verdict a d.expectedType d.allowStatus
  owner : ∃ r ∈ s.requests, r.number = d.number ∧ (r.owner = .packet d.response ∨ r.owner = .caller)

structure Inv (s : Session) (got unread : List Answer) : Prop where
  board : Board s.requests s.delivered none got unread s.fs
  split : s.answers = got ++ unread
  distinct : s.sent.Nodup
  once : s.answered.Nodup
  known : ∀ n ∈ s.answered, n ∈ s.sent
  obtained : ∀ n ∈ s.delivered, n ∈ got.map Answer.number
  callers : ∀ r ∈ s.requests, r.owner = .caller → r.number ∈ got.map Answer.number →
    r.number ∈ s.delivered
  alone : ∀ r ∈ s.requests, ∀ r' ∈ s.requests, r.owner = .caller → r'.owner = .caller →
    r.number ∉ s.delivered → r'.number ∉ s.delivered → r = r'
  single : s.delivered.Nodup
  correct : ∀ d ∈ s.deliveries, d.Correct s

theorem Inv.expects (h : Inv s got unread) (ho : s.Owns n p) (hn : n ∉ s.delivered) :
    Expects s.requests s.delivered p n := by
  obtain ⟨r, hr, rfl, hown⟩ := ho
  refine ⟨hn, fun m hm hmd => ?_, fun x hx hxn => ?_⟩
  · have hslot : (m, some p) ∈ s.fs.slots := h.board.slots ▸ mem_unanswered_packet.mpr ⟨hm, hmd⟩
    rcases hown with ⟨hpk, -⟩ | ⟨-, -, hvac⟩
    · have hslot' : (r.number, some p) ∈ s.fs.slots := by
        rw [h.board.slots]
        exact mem_unanswered_packet.mpr ⟨mem_slot hr (by simp [Request.slot, hpk]), hn⟩
      exact h.board.apart _ _ _ hslot hslot'
    · exact absurd ((mem_reservations h.board.room).mpr ⟨m, hslot⟩) hvac
  · have hslot := slot_unique h.distinct hx hr hxn
    rcases hown with ⟨hpk, -⟩ | ⟨hc, -⟩
    · simp only [Request.slot, hpk, Option.some.injEq] at hslot
      exact hslot ▸ rfl
    · simp [Request.slot, hc] at hslot

theorem Inv.accounted (h : Inv s got unread) (ho : s.Owns n p) (hn : n ∉ s.delivered) :
    Accounted s.requests s.delivered n unread := by
  intro b hb hbn
  have hans : b.number ∈ s.answered := by
    rw [Session.answered, h.split]
    exact mem_map_of_mem (mem_append_right _ hb)
  have honce : ((got ++ unread).map Answer.number).Nodup := h.split ▸ h.once
  have hfresh : b.number ∉ s.delivered := fun hmem => number_not_got honce hb (h.obtained _ hmem)
  obtain ⟨r, hr, hrn⟩ := mem_map.mp (h.known _ hans)
  cases hro : r.owner with
  | packet q => exact ⟨_, mem_slot hr (by simp [Request.slot, hro]; rfl), hrn, hfresh⟩
  | discard => exact ⟨_, mem_slot hr (by simp [Request.slot, hro]; rfl), hrn, hfresh⟩
  | caller =>
    -- a caller that waits is the one of this call
    obtain ⟨r', hr', rfl, ⟨-, hidle⟩ | ⟨hc, -⟩⟩ := ho
    · exact absurd (hrn ▸ hidle r hr hro) hfresh
    · cases h.alone r hr r' hr' hro hc (hrn ▸ hfresh) hn
      exact absurd hrn.symm hbn

theorem Board.reserve (h : Board requests delivered none got unread fs) {response : Option PacketId}
    (hn : n ∉ delivered) (hgot : n ∉ got.map Answer.number)
    (hv : ∀ p, response = some p → fs.live p = true ∧ some p ∉ fs.reservations) :
    Board (requests ++ [⟨n, Owner.ofResponse response⟩]) delivered none got unread
      (fs.reserveResponse n response) := by
  have hslots := slots_reserveResponse n response h.room
  have hold : ∀ m q, (m, some q) ∈ fs.slots → response ≠ some q :=
    fun m q hq hr => (hv q hr).2 ((mem_reservations h.room).mpr ⟨m, hq⟩)
  have hmem : ∀ m q, (m, some q) ∈ (fs.reserveResponse n response).slots →
      (m, some q) ∈ fs.slots ∨ m = n ∧ response = some q := by
    intro m q hq
    rw [hslots, mem_append, mem_singleton, Prod.mk.injEq] at hq
    exact hq.imp_right fun hq => ⟨hq.1, hq.2.symm⟩
  refine ⟨(reserveResponse_wire n response).trans h.wire, reserveResponse_room n response, ?_,
    fun m q hq => ?_, fun m m' q hm hm' => ?_, fun m q hq _ hm => ?_, fun m q hq _ a ha ham => ?_⟩
  · rw [hslots, h.slots, unanswered, unanswered, filterMap_append, filter_append]
    congr 1
    cases response with
    | none => simp [Owner.ofResponse, Request.slot, waits, hgot]
    | some p => simp [Owner.ofResponse, Request.slot, waits, hn]
  · rw [reserveResponse_live]
    rcases hmem m q hq with hq | ⟨-, hr⟩
    · exact h.live m q hq
    · exact (hv q hr).1
  · rcases hmem m q hm with g | ⟨g, hr⟩ <;> rcases hmem m' q hm' with g' | ⟨g', hr'⟩
    · exact h.apart m m' q g g'
    · exact absurd hr' (hold m q g)
    · exact absurd hr (hold m' q g')
    · exact g.trans g'.symm
  · rcases hmem m q hq with hq | ⟨-, rfl⟩
    · rw [reserveResponse_of_ne n (hold m q hq)]
      exact h.empty m q hq (by simp) hm
    · rw [reserveResponse_self]
      rfl
  · rcases hmem m q hq with hq | ⟨rfl, -⟩
    · rw [reserveResponse_of_ne n (hold m q hq)]
      exact h.stored m q hq (by simp) a ha ham
    · exact absurd (mem_map.mpr ⟨a, ha, ham⟩) hgot

theorem Board.send (h : Board requests delivered none got unread fs) :
    Board (requests ++ [⟨n, .caller⟩]) delivered none got unread fs := by
  refine ⟨h.wire, h.room, ?_, h.live, h.apart, h.empty, h.stored⟩
  rw [h.slots, unanswered, unanswered, filterMap_append]
  simp [Request.slot]

theorem Board.answer (h : Board requests delivered none got unread fs) (a : Answer) :
    Board requests delivered none got (unread ++ [a])
      { fs with wire := fs.wire ++ frame a.bytes } := by
  refine ⟨?_, h.room, h.slots, h.live, h.apart, h.empty, h.stored⟩
  simp [h.wire]

theorem Delivery.Correct.grow {d : Delivery} (h : d.Correct s) (ha : ∀ a ∈ s.answers, a ∈ t.answers)
    (hr : ∀ r ∈ s.requests, r ∈ t.requests) : d.Correct t := by
  obtain ⟨⟨a, hmem, hans⟩, r, hrmem, hown⟩ := h
  exact ⟨⟨a, ha a hmem, hans⟩, r, hr r hrmem, hown⟩

theorem Inv.fresh (h : Inv s got unread) (hn : n ∉ s.sent) :
    n ∉ s.delivered ∧ n ∉ got.map Answer.number := by
  have hgot : n ∉ got.map Answer.number := by
    intro hmem
    refine hn (h.known n ?_)
    rw [Session.answered, h.split, map_append]
    exact mem_append_left _ hmem
  exact ⟨fun hmem => hgot (h.obtained n hmem), hgot⟩

theorem nodup_sent (h : Inv s got unread) (hn : n ∉ s.sent) (owner : Owner) :
    ((s.requests ++ [Request.mk n owner]).map Request.number).Nodup := by
  rw [map_append]
  exact nodup_append_comm.mp (nodup_cons.mpr ⟨hn, h.distinct⟩)

theorem Inv.reserve (h : Inv s got unread) {response : Option PacketId}
    (ht : step s (.reserve n response) = some t) : Inv t got unread := by
  simp only [step, Option.ite_none_right_eq_some, Option.some.injEq] at ht
  obtain ⟨⟨hn, -, hv⟩, rfl⟩ := ht
  obtain ⟨hdel, hgot⟩ := h.fresh hn
  have howner : Owner.ofResponse response ≠ .caller := by cases response <;> simp [Owner.ofResponse]
  have hcaller : ∀ r ∈ s.requests ++ [⟨n, Owner.ofResponse response⟩], r.owner = .caller →
      r ∈ s.requests := by
    intro r hr hc
    rcases mem_append.mp hr with hr | hr
    · exact hr
    · cases mem_singleton.mp hr
      exact absurd hc howner
  refine ⟨h.board.reserve hdel hgot hv, h.split, nodup_sent h hn _, h.once, fun m hm => ?_,
    h.obtained, fun r hr hc => h.callers r (hcaller r hr hc) hc,
    fun r hr r' hr' hc hc' => h.alone r (hcaller r hr hc) r' (hcaller r' hr' hc') hc hc', h.single,
    fun d hd => (h.correct d hd).grow (fun _ ha => ha) fun r hr => mem_append_left _ hr⟩
  simp only [Session.sent, map_append]
  exact mem_append_left _ (h.known m hm)

theorem Inv.send (h : Inv s got unread) (ht : step s (.send n) = some t) : Inv t got unread := by
  simp only [step, Option.ite_none_right_eq_some, Option.some.injEq] at ht
  obtain ⟨⟨hn, hidle⟩, rfl⟩ := ht
  obtain ⟨hdel, hgot⟩ := h.fresh hn
  have hnew : ∀ r ∈ s.requests ++ [⟨n, .caller⟩], r.owner = .caller → r.number ∉ s.delivered →
      r = ⟨n, .caller⟩ := by
    intro r hr hc hrd
    rcases mem_append.mp hr with hr | hr
    · exact absurd (hidle r hr hc) hrd
    · exact mem_singleton.mp hr
  refine ⟨h.board.send, h.split, nodup_sent h hn _, h.once, fun m hm => ?_, h.obtained,
    fun r hr hc hrg => ?_,
    fun r hr r' hr' hc hc' hd hd' => (hnew r hr hc hd).trans (hnew r' hr' hc' hd').symm, h.single,
    fun d hd => (h.correct d hd).grow (fun _ ha => ha) fun r hr => mem_append_left _ hr⟩
  · simp only [Session.sent, map_append]
    exact mem_append_left _ (h.known m hm)
  · rcases mem_append.mp hr with hr | hr
    · exact h.callers r hr hc hrg
    · cases mem_singleton.mp hr
      exact absurd hrg hgot

theorem Inv.answer (h : Inv s got unread) (ht : step s (.answer a) = some t) :
    Inv t got (unread ++ [a]) := by
  simp only [step, Option.ite_none_right_eq_some, Option.some.injEq] at ht
  obtain ⟨⟨hsent, hnew⟩, rfl⟩ := ht
  refine ⟨h.board.answer a, ?_, h.distinct, ?_, fun m hm => ?_, h.obtained, h.callers, h.alone,
    h.single, fun d hd => (h.correct d hd).grow (fun _ ha => mem_append_left _ ha) fun _ hr => hr⟩
  · simp [h.split]
  · rw [Session.answered, map_append]
    exact nodup_append_comm.mp (nodup_cons.mpr ⟨hnew, h.once⟩)
  · simp only [Session.answered, map_append, mem_append, map_singleton,
      mem_singleton] at hm
    rcases hm with hm | rfl
    · exact h.known m hm
    · exact hsent

/-- A call has ended with the answer to its request, and has read the answers
`pre` for it. -/
theorem Inv.deliver {pre post : List Answer} (h : Inv s got (pre ++ post)) (hown : s.Owns a.number p)
    (hn : a.number ∉ s.delivered) (ha : a ∈ s.answers) (hread : a ∈ got ++ pre)
    (hboard : Board s.requests (s.delivered ++ [a.number]) none (got ++ pre) post fs)
    (hdata : (fs.packets p).data = a.bytes) (hnum : (fs.packets p).messageNumber = a.number)
    (expectedType allowStatus : Int) :
    Inv { s with
      fs
      deliveries := s.deliveries ++ [⟨a.number, p, expectedType, allowStatus,
        verdict a expectedType allowStatus, fs.packets p⟩] } (got ++ pre) post := by
  have hdel : (s.deliveries ++ [Delivery.mk a.number p expectedType allowStatus
      (verdict a expectedType allowStatus) (fs.packets p)]).map Delivery.number =
      s.delivered ++ [a.number] := by
    rw [map_append]
    rfl
  have hold : ∀ m, m ∉ s.delivered ++ [a.number] → m ∉ s.delivered :=
    fun m hm h => hm (mem_append_left _ h)
  refine ⟨?_, by rw [h.split, append_assoc], h.distinct, h.once, h.known, ?_, ?_, ?_, ?_, ?_⟩
  · rw [Session.delivered, hdel]
    exact hboard
  · intro m hm
    rw [Session.delivered, hdel, mem_append, mem_singleton] at hm
    rcases hm with hm | rfl
    · rw [map_append]
      exact mem_append_left _ (h.obtained m hm)
    · exact mem_map_of_mem hread
  · intro r hr hc hrg
    rw [Session.delivered, hdel, mem_append, mem_singleton]
    rw [map_append, mem_append, mem_map, mem_map] at hrg
    rcases hrg with ⟨b, hb, hbr⟩ | ⟨b, hb, hbr⟩
    · exact .inl (h.callers r hr hc (hbr ▸ mem_map_of_mem hb))
    · by_cases hba : b.number = a.number
      · exact .inr (hbr ▸ hba)
      · -- what was read on the way has a slot, a caller has none
        obtain ⟨x, hx, hxb, -⟩ := h.accounted hown hn b (mem_append_left _ hb) hba
        have := slot_unique h.distinct hx hr (hxb.trans hbr)
        simp [Request.slot, hc] at this
  · intro r hr r' hr' hc hc' hd hd'
    rw [Session.delivered, hdel] at hd hd'
    exact h.alone r hr r' hr' hc hc' (hold _ hd) (hold _ hd')
  · rw [Session.delivered, hdel]
    exact nodup_append_comm.mp (nodup_cons.mpr ⟨hn, h.single⟩)
  · intro d hd
    rcases mem_append.mp hd with hd | hd
    · exact (h.correct d hd).grow (fun _ ha => ha) fun _ hr => hr
    · cases mem_singleton.mp hd
      obtain ⟨r, hr, hrn, hown⟩ := hown
      exact ⟨⟨a, ha, rfl, hdata, hnum, rfl⟩, r, hr, hrn, hown.imp And.left And.left⟩

theorem Inv.receive (h : Inv s got unread) {expectedType allowStatus : Int}
    (ht : step s (.receive n p expectedType allowStatus) = some t) :
    ∃ got' unread', Inv t got' unread' := by
  simp only [step, Option.ite_none_right_eq_some, Option.some.injEq] at ht
  obtain ⟨⟨hown, hn, hans⟩, rfl⟩ := ht
  obtain ⟨a, hmem, rfl⟩ := mem_map.mp hans
  have honce : ((got ++ unread).map Answer.number).Nodup := h.split ▸ h.once
  have hslot : a ∈ got → (a.number, some p) ∈ s.fs.slots := by
    intro ha
    obtain ⟨r, hr, hrn, ⟨hpk, -⟩ | ⟨hc, -⟩⟩ := hown
    · rw [h.board.slots]
      exact mem_unanswered_packet.mpr ⟨mem_slot hr (by simp [Request.slot, hpk, hrn]), hn⟩
    · exact absurd (hrn ▸ h.callers r hr hc (hrn ▸ mem_map_of_mem ha)) hn
  obtain ⟨fs', pre, post, rfl, hapre, hresult, hboard, -, hdata, hnum⟩ :=
    h.board.receive h.distinct honce (h.expects hown hn) (h.split ▸ hmem) hslot
      (h.accounted hown hn) expectedType allowStatus
  refine ⟨got ++ pre, post, ?_⟩
  simp only [Session.receive, hresult]
  exact h.deliver hown hn hmem hapre hboard hdata hnum expectedType allowStatus

theorem Inv.step (h : Inv s got unread) {act : Action} (ht : Matching.step s act = some t) :
    ∃ got' unread', Inv t got' unread' := by
  cases act with
  | reserve n response => exact ⟨_, _, h.reserve ht⟩
  | send n => exact ⟨_, _, h.send ht⟩
  | answer a => exact ⟨_, _, h.answer ht⟩
  | receive n p expectedType allowStatus => exact h.receive ht

/-! ## The result -/

/-- A connection on which nothing was sent yet. -/
def start (fs : FileSystem) : Session :=
  { fs := { fs with reservations := [], wire := [] } }

theorem inv_start (fs : FileSystem) : Inv (start fs) [] [] := by
  have hslots : (start fs).fs.slots = [] := zip_nil_right
  have hboard : Board (start fs).requests (start fs).delivered none [] [] (start fs).fs := by
    refine ⟨rfl, Nat.zero_le _, hslots, ?_, ?_, ?_, ?_⟩ <;> simp [hslots]
  refine ⟨hboard, rfl, nodup_nil, nodup_nil, ?_, ?_, ?_, ?_, nodup_nil, ?_⟩ <;>
    simp [start, Session.answered, Session.delivered]

/-- What holds of the requests and responses of a session. -/
structure Matched (s : Session) : Prop where
  /-- A receiving call has ended with the answer to its request. -/
  ended : ∀ d ∈ s.deliveries, ∃ a ∈ s.answers, a.number = d.number ∧ d.packet.data = a.bytes ∧
    d.packet.messageNumber = d.number ∧ d.outcome = verdict a d.expectedType d.allowStatus
  toOwner : ∀ d ∈ s.deliveries, ∀ r ∈ s.requests, r.number = d.number →
    r.owner = .packet d.response ∨ r.owner = .caller
  once : s.delivered.Nodup
  dropped : ∀ r ∈ s.requests, r.owner = .discard → r.number ∉ s.delivered
  /-- The two arrays are the requests that were not answered to their owner, position by
  position. A packet that waits holds its own answer or nothing. -/
  waiting : ∃ got unread, s.answers = got ++ unread ∧
    s.fs.wire = (unread.flatMap fun a => frame a.bytes) ∧
    s.fs.reservations =
      (unanswered s.requests s.delivered (got.map Answer.number)).map Prod.snd ∧
    s.fs.numbers.take s.fs.reservations.length =
      (unanswered s.requests s.delivered (got.map Answer.number)).map Prod.fst ∧
    ∀ n q, (n, some q) ∈ unanswered s.requests s.delivered (got.map Answer.number) →
      (s.fs.packets q).capacity = 0 ∨ ∃ a ∈ got, a.number = n ∧ (s.fs.packets q).Holds a

theorem map_fst_slots (h : fs.reservations.length ≤ fs.numbers.length) :
    fs.slots.map Prod.fst = fs.numbers.take fs.reservations.length := by
  rw [FileSystem.slots, zip_eq_zip_take_min, Nat.min_eq_right h, take_length]
  exact map_fst_zip (length_take_le _ _)

theorem Inv.matched (h : Inv s got unread) : Matched s := by
  have howner : ∀ d ∈ s.deliveries, ∀ r ∈ s.requests, r.number = d.number →
      r.owner = .packet d.response ∨ r.owner = .caller := by
    intro d hd r hr hrd
    obtain ⟨r', hr', hrd', hown⟩ := (h.correct d hd).owner
    cases inj_on_of_nodup_map h.distinct hr hr' (hrd.trans hrd'.symm)
    exact hown
  refine ⟨fun d hd => (h.correct d hd).answer, howner, h.single, fun r hr hdis hmem => ?_,
    got, unread, h.split, h.board.wire, ?_, ?_, fun n q hslot => ?_⟩
  · obtain ⟨d, hd, hdr⟩ := mem_map.mp hmem
    rcases howner d hd r hr hdr.symm with hown | hown <;> rw [hdis] at hown <;> cases hown
  · rw [← h.board.slots, map_snd_slots h.board.room]
  · rw [← h.board.slots, map_fst_slots h.board.room]
  · rw [← h.board.slots] at hslot
    by_cases hn : n ∈ got.map Answer.number
    · obtain ⟨a, ha, han⟩ := mem_map.mp hn
      exact .inr ⟨a, ha, han, h.board.stored n q hslot (by simp) a ha han⟩
    · exact .inl (h.board.empty n q hslot (by simp) hn)

theorem exists_inv (h : Reaches step (fun _ _ => True) (start fs) s) :
    ∃ got unread, Inv s got unread := by
  refine h.invariant (P := fun s => ∃ got unread, Inv s got unread) ⟨[], [], inv_start fs⟩ ?_
  intro t act u ⟨got, unread, hinv⟩ _ hs
  exact hinv.step hs

/-- Every response is received by its request. Whatever is sent and in
whatever order the server answers, each receiving call ends with the answer to
its own request, answers nobody wants are dropped, and the reservations are
those of the requests not yet answered to their owner. -/
theorem responses_match (h : Reaches step (fun _ _ => True) (start fs) s) : Matched s := by
  obtain ⟨got, unread, hinv⟩ := exists_inv h
  exact hinv.matched

def sampleStart : FileSystem :=
  { packets := fun _ => Packet.init 65001 }

/-- Three responses are reserved, the second with null. The last is answered
first, and a request received at once stores it. -/
def sampleActions : List Action :=
  [.reserve 0x105 (some 0), .reserve 0x204 none, .reserve 0x305 (some 1),
    .answer ⟨0x305, 103, [7, 7], by decide, by decide⟩,
    .answer ⟨0x204, 101, [0, 0, 0, 0], by decide, by decide⟩,
    .send 0x410, .answer ⟨0x410, 104, [], by decide, by decide⟩,
    .receive 0x410 2 104 (-1),
    .answer ⟨0x105, 101, [0, 0, 0, 4], by decide, by decide⟩,
    .receive 0x105 0 103 (-1), .receive 0x305 1 103 (-1)]

theorem responses_match_sample : ∃ s, Reaches step (fun _ _ => True) (start sampleStart) s ∧
    s.deliveries.map (fun d => (d.number, d.response, d.packet.data.length)) =
      [(0x410, 2, 5), (0x105, 0, 9), (0x305, 1, 7)] ∧ Matched s := by
  have hrun : (runs step (fun _ _ => True) (start sampleStart) sampleActions).map
      (fun s => s.deliveries.map fun d => (d.number, d.response, d.packet.data.length)) =
      some [(0x410, 2, 5), (0x105, 0, 9), (0x305, 1, 7)] := by
    decide +kernel
  obtain ⟨s, hs, hd⟩ := exists_reaches hrun
  exact ⟨s, hs, hd, responses_match hs⟩

end NetBox.Sftp.Matching
