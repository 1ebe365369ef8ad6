import NetBox.Sftp.Receive
import NetBox.Lib.Run
import Mathlib.Data.List.Nodup

/-! # Every response goes to its request

Requests are sent with different numbers. The response of a request is
reserved with a packet, reserved with null when nobody wants it, or received at
once without a reservation. The server answers in any order. Whatever the
order, a call that receives a response ends with the answer to its request.
-/
namespace NetBox.Sftp.Matching
open Lib.Bytes Lib.Slots Lib.Run Sftp.FileSystem List

/-- Who gets the response of a request: the packet it is reserved with, nobody
when it is reserved with null, or the caller that receives it at once. -/
inductive Owner
  | packet (p : PacketId)
  | discard
  | caller
deriving DecidableEq

def Owner.ofResponse : Option PacketId → Owner
  | some p => .packet p
  | none => .discard

structure Request where
  number : UInt32
  owner : Owner

/-- A call of `ReceiveResponse` that has ended, with the response after it. -/
structure Delivery where
  number : UInt32
  response : PacketId
  expectedType : Int
  allowStatus : Int
  outcome : Except Stop UInt32
  packet : Packet

/-- The file system with the history of its connection: the requests that were
sent, the answers in the order the server gave them, and the calls that
received a response. -/
structure Session where
  fs : FileSystem
  requests : List Request := []
  answers : List Answer := []
  deliveries : List Delivery := []

inductive Action
  | reserve (number : UInt32) (response : Option PacketId)
  | send (number : UInt32)
  | answer (answer : Answer)
  | receive (number : UInt32) (response : PacketId) (expectedType allowStatus : Int)

namespace Session

def sent (s : Session) : List UInt32 := s.requests.map Request.number

def answered (s : Session) : List UInt32 := s.answers.map Answer.number

def delivered (s : Session) : List UInt32 := s.deliveries.map Delivery.number

/-- No caller is about to receive a response at once. -/
abbrev Idle (s : Session) : Prop :=
  ∀ r ∈ s.requests, r.owner = .caller → r.number ∈ s.delivered

/-- A packet that exists and has no reservation. -/
abbrev Vacant (s : Session) (p : PacketId) : Prop :=
  s.fs.live p = true ∧ some p ∉ s.fs.reservations

/-- The call that receives the response of a request: on the packet it is
reserved with, or the one its caller makes at once. -/
abbrev Owns (s : Session) (number : UInt32) (response : PacketId) : Prop :=
  ∃ r ∈ s.requests, r.number = number ∧
    (r.owner = .packet response ∧ s.Idle ∨ r.owner = .caller ∧ s.Vacant response)

def receive (s : Session) (number : UInt32) (response : PacketId)
    (expectedType allowStatus : Int) : Session :=
  let (outcome, fs) := s.fs.receiveResponse number response expectedType allowStatus false
  { s with
    fs
    deliveries := s.deliveries ++
      [{ number, response, expectedType, allowStatus, outcome, packet := fs.packets response }] }

end Session

/-- A receiving call waits for its answer. Nothing else can happen meanwhile
but the server answering, so it is one action that follows the answer. -/
def step (s : Session) : Action → Option Session
  | .reserve number response =>
    if number ∉ s.sent ∧ s.Idle ∧ ∀ p, response = some p → s.Vacant p then
      some { s with
        fs := s.fs.reserveResponse number response
        requests := s.requests ++ [⟨number, Owner.ofResponse response⟩] }
    else none
  | .send number =>
    if number ∉ s.sent ∧ s.Idle then
      some { s with requests := s.requests ++ [⟨number, .caller⟩] }
    else none
  | .answer a =>
    if a.number ∈ s.sent ∧ a.number ∉ s.answered then
      some { s with
        fs := { s.fs with wire := s.fs.wire ++ frame a.bytes }
        answers := s.answers ++ [a] }
    else none
  | .receive number response expectedType allowStatus =>
    if s.Owns number response ∧ number ∉ s.delivered ∧ number ∈ s.answered then
      some (s.receive number response expectedType allowStatus)
    else none

/-! ## The requests that wait -/

def Request.slot (r : Request) : Option (UInt32 × Option PacketId) :=
  match r.owner with
  | .packet p => some (r.number, some p)
  | .discard => some (r.number, none)
  | .caller => none

/-- A reservation is there until its answer is delivered, or until it is read
when it is reserved with null. -/
def waits (delivered read : List UInt32) (slot : UInt32 × Option PacketId) : Bool :=
  if slot.2.isSome then !delivered.contains slot.1 else !read.contains slot.1

/-- The reservations of the requests that were not answered to their owner. -/
def unanswered (requests : List Request) (delivered read : List UInt32) :
    List (UInt32 × Option PacketId) :=
  (requests.filterMap Request.slot).filter (waits delivered read)

variable {requests : List Request} {delivered read : List UInt32} {m n : UInt32} {p q : PacketId}
  {x y : UInt32 × Option PacketId}

theorem Request.slot_injective {r r' : Request} (h : r.slot = some x) (h' : r'.slot = some x) :
    r = r' := by
  obtain ⟨n, o⟩ := r
  obtain ⟨n', o'⟩ := r'
  cases o <;> cases o' <;> simp_all [Request.slot] <;> grind

theorem mem_slot {r : Request} (hr : r ∈ requests) (h : r.slot = some x) :
    x ∈ requests.filterMap Request.slot :=
  mem_filterMap.mpr ⟨r, hr, h⟩

theorem Request.slot_number {r : Request} (h : r.slot = some x) : x.1 = r.number := by
  obtain ⟨n, o⟩ := r
  cases o <;> simp_all [Request.slot] <;> grind

theorem slot_unique (hd : (requests.map Request.number).Nodup)
    (hx : x ∈ requests.filterMap Request.slot) {r : Request} (hr : r ∈ requests)
    (hn : x.1 = r.number) : r.slot = some x := by
  obtain ⟨r', hr', hs⟩ := mem_filterMap.mp hx
  have : r' = r := inj_on_of_nodup_map hd hr' hr ((Request.slot_number hs).symm.trans hn)
  exact this ▸ hs

theorem slots_unique (hd : (requests.map Request.number).Nodup)
    (hx : x ∈ requests.filterMap Request.slot) (hy : y ∈ requests.filterMap Request.slot)
    (hn : x.1 = y.1) : x = y := by
  obtain ⟨r, hr, hs⟩ := mem_filterMap.mp hy
  have := slot_unique hd hx hr (hn.trans (Request.slot_number hs))
  exact Option.some.inj (this.symm.trans hs)

theorem unanswered_nodup (hd : (requests.map Request.number).Nodup) :
    (unanswered requests delivered read).Nodup :=
  ((hd.of_map _).filterMap fun _ _ _ h h' => Request.slot_injective h h').filter _

theorem mem_unanswered_packet : (n, some p) ∈ unanswered requests delivered read ↔
    (n, some p) ∈ requests.filterMap Request.slot ∧ n ∉ delivered := by
  simp [unanswered, waits, mem_filter]

theorem mem_unanswered_discard : (n, none) ∈ unanswered requests delivered read ↔
    (n, none) ∈ requests.filterMap Request.slot ∧ n ∉ read := by
  simp [unanswered, waits, mem_filter]

theorem unanswered_erase (hd : (requests.map Request.number).Nodup) {delivered' read' : List UInt32}
    (hw : ∀ y ∈ requests.filterMap Request.slot,
      waits delivered' read' y = (waits delivered read y && y != x)) :
    unanswered requests delivered' read' = (unanswered requests delivered read).erase x := by
  rw [(unanswered_nodup hd).erase_eq_filter, unanswered, unanswered, filter_filter]
  exact filter_congr fun y hy => by rw [hw y hy, Bool.and_comm]

/-- Delivering an answer takes its reservation away. -/
theorem unanswered_deliver (hd : (requests.map Request.number).Nodup)
    (hx : (n, some p) ∈ requests.filterMap Request.slot) :
    unanswered requests (delivered ++ [n]) read =
      (unanswered requests delivered read).erase (n, some p) := by
  refine unanswered_erase hd fun y hy => ?_
  have hu : y.1 = n → y = (n, some p) := fun h => slots_unique hd hy hx h
  rcases y with ⟨m, _ | q⟩
  · simp [waits]
  · by_cases hm : m = n
    · cases hu hm
      simp [waits]
    · simp [waits, hm]

/-- Reading an answer nobody wants takes its reservation away. -/
theorem unanswered_discard (hd : (requests.map Request.number).Nodup) :
    unanswered requests delivered (read ++ [n]) =
      (unanswered requests delivered read).erase (n, none) := by
  refine unanswered_erase hd fun y hy => ?_
  rcases y with ⟨m, _ | q⟩
  · by_cases hm : m = n
    · simp [waits, hm]
    · simp [waits, hm]
  · simp [waits]

theorem unanswered_deliver_caller (hn : ∀ y ∈ requests.filterMap Request.slot, y.1 ≠ n) :
    unanswered requests (delivered ++ [n]) read = unanswered requests delivered read := by
  refine filter_congr fun y hy => ?_
  simp [waits, hn y hy]

/-- Reading any other answer leaves the reservations as they are. -/
theorem unanswered_read (hn : (n, none) ∉ requests.filterMap Request.slot) :
    unanswered requests delivered (read ++ [n]) = unanswered requests delivered read := by
  refine filter_congr fun y hy => ?_
  rcases y with ⟨m, _ | q⟩
  · have hm : m ≠ n := fun h => hn (h ▸ hy)
    simp [waits, hm]
  · simp [waits]

/-! ## Reading answers -/

variable {busy : Option PacketId} {got unread : List Answer} {fs : FileSystem} {a : Answer}

/-- The file system after the answers `got` were read: `unread` is on the wire,
the reservations are those of the requests that wait, and each packet with a
reservation holds its answer or nothing. The packet `busy` is the one a call
reads into. -/
structure Board (requests : List Request) (delivered : List UInt32) (busy : Option PacketId)
    (got unread : List Answer) (fs : FileSystem) : Prop where
  wire : fs.wire = unread.flatMap fun a => frame a.bytes
  room : fs.reservations.length ≤ fs.numbers.length
  slots : fs.slots = unanswered requests delivered (got.map Answer.number)
  live : ∀ n q, (n, some q) ∈ fs.slots → fs.live q = true
  apart : ∀ m n q, (m, some q) ∈ fs.slots → (n, some q) ∈ fs.slots → m = n
  empty : ∀ n q, (n, some q) ∈ fs.slots → some q ≠ busy → n ∉ got.map Answer.number →
    (fs.packets q).capacity = 0
  stored : ∀ n q, (n, some q) ∈ fs.slots → some q ≠ busy → ∀ a ∈ got, a.number = n →
    (fs.packets q).Holds a

theorem slots_getElem? {i : Nat} {o : Option PacketId} (h : fs.slots[i]? = some (n, o)) :
    fs.numbers[i]? = some n ∧ fs.reservations[i]? = some o :=
  getElem?_zip_eq_some.mp h

theorem map_snd_slots (h : fs.reservations.length ≤ fs.numbers.length) :
    fs.slots.map Prod.snd = fs.reservations :=
  map_snd_zip h

theorem mem_reservations (h : fs.reservations.length ≤ fs.numbers.length) {o : Option PacketId} :
    o ∈ fs.reservations ↔ ∃ n, (n, o) ∈ fs.slots := by
  rw [← map_snd_slots h]
  simp

/-- The position of a packet is the one of its slot. -/
theorem indexOf_slot (h : fs.reservations.length ≤ fs.numbers.length) {r : Nat}
    (hr : fs.indexOf p = some r) : ∃ n, fs.slots[r]? = some (n, some p) := by
  have hp := getElem?_of_indexOf hr
  have hn : r < fs.numbers.length := by
    have := (List.getElem?_eq_some_iff.mp hp).1
    omega
  exact ⟨fs.numbers[r], getElem?_zip_eq_some.mpr ⟨getElem?_eq_getElem hn, hp⟩⟩

theorem indexOf_ne_none (h : fs.reservations.length ≤ fs.numbers.length)
    (hp : (n, some p) ∈ fs.slots) : fs.indexOf p ≠ none :=
  fun hr => idxOf?_eq_none_iff.mp hr ((mem_reservations h).mpr ⟨n, hp⟩)

/-- The file system after `p` has received an answer. -/
def took (fs : FileSystem) (p : PacketId) (a : Answer) (rest : List UInt8) : FileSystem :=
  { fs with wire := rest }.setPacket p ((fs.packets p).received a)

theorem took_self (rest : List UInt8) : ((took fs p a rest).packets p).Holds a := by
  rw [took, setPacket_self]
  exact Packet.holds_received _ a

theorem took_of_ne (rest : List UInt8) (h : q ≠ p) :
    (took fs p a rest).packets q = fs.packets q :=
  setPacket_of_ne _ h

theorem took_find (rest : List UInt8) : (took fs p a rest).slots.findIdx?
    (fun slot => slot.1 == ((took fs p a rest).packets p).messageNumber) =
      fs.slots.findIdx? fun slot => slot.1 == a.number := by
  rw [(took_self rest).number]
  rfl

theorem receiveOnce_answer {rest : List UInt8} (h : fs.wire = frame a.bytes ++ rest)
    (reservation : Option Nat) (expectedType : Int) :
    fs.receiveOnce p reservation expectedType false =
      if reservation.bind (fs.numbers[·]?) ≠ some a.number then
        (took fs p a rest).passOn p reservation
      else (.ok (false, reservation), took fs p a rest) := by
  simp only [receiveOnce, Bool.false_eq_true, if_false, readPacket_answer h]
  rw [← took, (took_self rest).number]
  rfl

theorem Board.unique (h : Board requests delivered busy got unread fs)
    (hd : (requests.map Request.number).Nodup) (hx : x ∈ fs.slots) (hy : y ∈ fs.slots)
    (hn : x.1 = y.1) : x = y := by
  rw [h.slots] at hx hy
  exact slots_unique hd (mem_of_mem_filter hx) (mem_of_mem_filter hy) hn

theorem Board.nodup (h : Board requests delivered busy got unread fs)
    (hd : (requests.map Request.number).Nodup) : fs.slots.Nodup :=
  h.slots ▸ unanswered_nodup hd

/-- The search for a number finds its slot. -/
theorem Board.find (h : Board requests delivered busy got unread fs)
    (hd : (requests.map Request.number).Nodup) (hx : x ∈ fs.slots) :
    ∃ i, fs.slots.findIdx? (fun slot => slot.1 == x.1) = some i ∧ fs.slots[i]? = some x := by
  have hsome : (fs.slots.findIdx? (fun slot => slot.1 == x.1)).isSome := by
    rw [findIdx?_isSome, any_eq_true]
    exact ⟨x, hx, by simp⟩
  obtain ⟨i, hi⟩ := Option.isSome_iff_exists.mp hsome
  obtain ⟨hlt, hn, -⟩ := findIdx?_eq_some_iff_getElem.mp hi
  have : fs.slots[i] = x := h.unique hd (getElem_mem hlt) hx (by simpa using hn)
  exact ⟨i, hi, this ▸ getElem?_eq_getElem hlt⟩

theorem Board.slots_remove (h : Board requests delivered busy got unread fs)
    (hd : (requests.map Request.number).Nodup) {i : Nat} (hi : fs.slots[i]? = some x) :
    (fs.removeReservation i).slots = fs.slots.erase x := by
  obtain ⟨hlt, hx⟩ := List.getElem?_eq_some_iff.mp hi
  have hr : i < fs.reservations.length := by
    have : fs.slots.length ≤ fs.reservations.length := by
      simp only [FileSystem.slots, length_zip]
      omega
    omega
  rw [slots_removeReservation hr h.room, ← hx, (h.nodup hd).erase_getElem]

theorem Board.wire_cons (h : Board requests delivered busy got (a :: unread) fs) :
    fs.wire = frame a.bytes ++ unread.flatMap fun a => frame a.bytes := by
  rw [h.wire, flatMap_cons]

/-- What is left to show when an answer was read: the reservations are right, and
the packets are as before but for the one the answer belongs to. -/
theorem Board.got_one {fs' : FileSystem} (h : Board requests delivered (some p) got (a :: unread) fs)
    (hnew : a.number ∉ got.map Answer.number)
    (hwire : fs'.wire = unread.flatMap fun a => frame a.bytes)
    (hroom : fs'.reservations.length ≤ fs'.numbers.length)
    (hslots : fs'.slots = unanswered requests delivered (got.map Answer.number ++ [a.number]))
    (hsub : ∀ x ∈ fs'.slots, x ∈ fs.slots) (hlive : fs'.live = fs.live)
    (hkeep : ∀ n q, (n, some q) ∈ fs'.slots → q ≠ p → n ≠ a.number →
      fs'.packets q = fs.packets q)
    (hown : ∀ q, (a.number, some q) ∈ fs'.slots → q ≠ p → (fs'.packets q).Holds a) :
    Board requests delivered (some p) (got ++ [a]) unread fs' := by
  have hbusy : ∀ q, some q ≠ some p → q ≠ p := fun q hq he => hq (congrArg some he)
  refine ⟨hwire, hroom, ?_, fun n q hq => ?_, fun m n q hm hn => ?_, fun n q hq hb hn => ?_,
    fun n q hq hb b hmem hbn => ?_⟩
  · rw [hslots, map_append, map_singleton]
  · rw [hlive]
    exact h.live n q (hsub _ hq)
  · exact h.apart m n q (hsub _ hm) (hsub _ hn)
  · rw [map_append, map_singleton, mem_append, mem_singleton, not_or] at hn
    rw [hkeep n q hq (hbusy q hb) hn.2]
    exact h.empty n q (hsub _ hq) hb hn.1
  · rcases mem_append.mp hmem with hmem | hmem
    · have hna : n ≠ a.number := fun he => hnew (mem_map.mpr ⟨b, hmem, hbn.trans he⟩)
      rw [hkeep n q hq (hbusy q hb) hna]
      exact h.stored n q (hsub _ hq) hb b hmem hbn
    · cases mem_singleton.mp hmem
      cases hbn
      exact hown q hq (hbusy q hb)

/-- An answer nobody wants is dropped with its reservation. -/
theorem Board.drop (h : Board requests delivered (some p) got (a :: unread) fs)
    (hd : (requests.map Request.number).Nodup) (hx : (a.number, none) ∈ fs.slots)
    (hnew : a.number ∉ got.map Answer.number) :
    ∃ fs', (took fs p a (unread.flatMap fun a => frame a.bytes)).passOn p (fs.indexOf p) =
        (.ok (true, fs'.indexOf p), fs') ∧
      Board requests delivered (some p) (got ++ [a]) unread fs' ∧ fs'.live = fs.live := by
  obtain ⟨i, hfind, hi⟩ := h.find hd hx
  generalize hrest : (unread.flatMap fun a => frame a.bytes) = rest
  have hres : (took fs p a rest).reservations[i]? = some none := (slots_getElem? hi).2
  have hslots : ((took fs p a rest).removeReservation i).slots = fs.slots.erase (a.number, none) :=
    h.slots_remove hd hi
  refine ⟨(took fs p a rest).removeReservation i, ?_, ?_, rfl⟩
  · have hindex : ((took fs p a rest).removeReservation i).indexOf p =
        (fs.indexOf p).map fun r => if i < r then r - 1 else r :=
      idxOf?_eraseIdx hres (by simp)
    simp only [passOn, took_find, hfind, hres, hindex]
  · have hsub : ∀ y ∈ ((took fs p a rest).removeReservation i).slots, y ∈ fs.slots :=
      fun y hy => mem_of_mem_erase (hslots ▸ hy)
    refine h.got_one hnew hrest.symm (giveUp_room (some i) h.room) ?_ hsub rfl (fun n q _ hq _ => ?_)
      fun q hq _ => ?_
    · rw [hslots, h.slots, unanswered_discard hd]
    · rw [removeReservation_of_ne (by simp [hres]), took_of_ne rest hq]
    · cases h.unique hd (hsub _ hq) hx rfl

/-- An answer that is reserved with another packet is stored there. -/
theorem Board.store (h : Board requests delivered (some p) got (a :: unread) fs)
    (hd : (requests.map Request.number).Nodup) (hx : (a.number, some q) ∈ fs.slots) (hqp : q ≠ p)
    (hnew : a.number ∉ got.map Answer.number) :
    ∃ fs', (took fs p a (unread.flatMap fun a => frame a.bytes)).passOn p (fs.indexOf p) =
        (.ok (true, fs'.indexOf p), fs') ∧
      Board requests delivered (some p) (got ++ [a]) unread fs' ∧ fs'.live = fs.live := by
  obtain ⟨i, hfind, hi⟩ := h.find hd hx
  generalize hrest : (unread.flatMap fun a => frame a.bytes) = rest
  have hself : ((took fs p a rest).packets p).Holds a := took_self rest
  obtain ⟨hok, hholds, -⟩ := hself.assign (p := (took fs p a rest).packets q)
  rcases hassign : ((took fs p a rest).packets q).assign ((took fs p a rest).packets p) with
    ⟨_, packet⟩
  rw [hassign] at hok hholds
  cases hok
  refine ⟨(took fs p a rest).setPacket q packet, ?_, ?_, rfl⟩
  · have hres : (took fs p a rest).reservations[i]? = some (some q) := (slots_getElem? hi).2
    have hlive : (took fs p a rest).live q = true := h.live _ _ hx
    simp only [passOn, took_find, hfind, hres, hqp, if_false, hlive, if_true, hassign]
    rfl
  · refine h.got_one hnew hrest.symm h.room ?_ (fun _ hy => hy) rfl (fun n q' hq hp hn => ?_)
      fun q' hq _ => ?_
    · have hnone : (a.number, none) ∉ requests.filterMap Request.slot := by
        intro hmem
        have hx' := h.slots ▸ hx
        cases slots_unique hd hmem (mem_of_mem_filter hx') rfl
      rw [unanswered_read hnone]
      exact h.slots
    · have hne : q' ≠ q := fun he => hn (h.apart n a.number q (he ▸ hq) hx)
      rw [setPacket_of_ne _ hne, took_of_ne rest hp]
    · cases h.unique hd hq hx rfl
      rwa [setPacket_self]

/-- The call on `p` receives the response of the request `n`: no other slot of
the packet waits, and the slot of the request is the one of the packet. -/
structure Expects (requests : List Request) (delivered : List UInt32) (p : PacketId) (n : UInt32) :
    Prop where
  fresh : n ∉ delivered
  own : ∀ m, (m, some p) ∈ requests.filterMap Request.slot → m ∉ delivered → m = n
  slot : ∀ x ∈ requests.filterMap Request.slot, x.1 = n → x.2 = some p

theorem Board.own_number (h : Board requests delivered busy got unread fs)
    (he : Expects requests delivered p n) {r : Nat} (hr : fs.indexOf p = some r) :
    fs.slots[r]? = some (n, some p) ∧ fs.numbers[r]? = some n := by
  obtain ⟨m, hm⟩ := indexOf_slot h.room hr
  have hmem := mem_unanswered_packet.mp (h.slots ▸ mem_of_getElem? hm)
  cases he.own m hmem.1 hmem.2
  exact ⟨hm, (slots_getElem? hm).1⟩

/-- Reading an answer that is not the expected one goes on. -/
theorem Board.other (h : Board requests delivered (some p) got (a :: unread) fs)
    (expectedType : Int) (hd : (requests.map Request.number).Nodup) (he : Expects requests delivered p n)
    (hn : a.number ≠ n) (hx : x ∈ fs.slots) (hxa : x.1 = a.number)
    (hnew : a.number ∉ got.map Answer.number) :
    ∃ fs', fs.receiveOnce p (fs.indexOf p) expectedType false = (.ok (true, fs'.indexOf p), fs') ∧
      Board requests delivered (some p) (got ++ [a]) unread fs' ∧ fs'.live = fs.live := by
  have hcond : (fs.indexOf p).bind (fs.numbers[·]?) ≠ some a.number := by
    cases hr : fs.indexOf p with
    | none => simp
    | some r =>
      rw [Option.bind_some, (h.own_number he hr).2]
      exact fun h => hn (Option.some.inj h).symm
  rw [receiveOnce_answer h.wire_cons, if_pos hcond]
  rcases x with ⟨m, _ | q⟩
  · cases hxa
    exact h.drop hd hx hnew
  · cases hxa
    refine h.store hd hx (fun hqp => hn ?_) hnew
    have hmem := mem_unanswered_packet.mp (h.slots ▸ hx)
    exact he.own _ (hqp ▸ hmem.1) hmem.2

/-- Reading the expected answer ends the loop. -/
theorem Board.expected (h : Board requests delivered (some p) got (a :: unread) fs)
    (expectedType : Int) (he : Expects requests delivered p a.number)
    (hnew : a.number ∉ got.map Answer.number) :
    ∃ fs', fs.receiveOnce p (fs.indexOf p) expectedType false = (.ok (false, fs'.indexOf p), fs') ∧
      Board requests delivered (some p) (got ++ [a]) unread fs' ∧ (fs'.packets p).Holds a ∧
      fs'.live = fs.live := by
  have hwire := h.wire_cons
  generalize hrest : (unread.flatMap fun a => frame a.bytes) = rest at hwire
  have hslot : ∀ x ∈ fs.slots, x.1 = a.number → x.2 = some p :=
    fun x hx => he.slot x (mem_of_mem_filter (h.slots ▸ hx))
  refine ⟨took fs p a rest, ?_, ?_, took_self rest, rfl⟩
  · rw [receiveOnce_answer hwire]
    cases hr : fs.indexOf p with
    | some r =>
      rw [Option.bind_some, (h.own_number he hr).2, if_neg (by simp)]
      exact congrArg (fun i => (Except.ok (false, i), took fs p a rest)) hr.symm
    | none =>
      -- without a reservation of its own the number is in no slot
      have hfind : (fs.slots.findIdx? fun slot => slot.1 == a.number) = none := by
        rw [findIdx?_eq_none_iff]
        intro x hx
        rw [beq_eq_false_iff_ne]
        exact fun hxa => indexOf_ne_none h.room (n := x.1) (hslot x hx hxa ▸ hx) hr
      rw [if_pos (by simp)]
      simp only [passOn, took_find, hfind]
      exact congrArg (fun i => (Except.ok (false, i), took fs p a rest)) hr.symm
  · refine h.got_one hnew hrest.symm h.room ?_ (fun _ hx => hx) rfl
      (fun n q _ hq _ => took_of_ne rest hq) fun q hq hqp => ?_
    · rw [unanswered_read fun hmem => nomatch he.slot _ hmem rfl]
      exact h.slots
    · exact absurd (Option.some.inj (hslot _ hq rfl)) hqp

/-- Every answer on the wire is expected or has a slot that waits. -/
def Accounted (requests : List Request) (delivered : List UInt32) (n : UInt32)
    (unread : List Answer) : Prop :=
  ∀ b ∈ unread, b.number ≠ n → ∃ x ∈ requests.filterMap Request.slot, x.1 = b.number ∧
    b.number ∉ delivered

theorem number_not_got (h : ((got ++ unread).map Answer.number).Nodup) (ha : a ∈ unread) :
    a.number ∉ got.map Answer.number := by
  rw [map_append] at h
  exact fun hmem => (nodup_append.mp h).2.2 _ hmem _ (mem_map_of_mem ha) rfl

/-- The loop reads the answers up to the expected one. -/
theorem Board.loop {pre post : List Answer} {fuel : Nat}
    (h : Board requests delivered (some p) got (pre ++ a :: post) fs) (expectedType : Int)
    (hd : (requests.map Request.number).Nodup)
    (hnew : ((got ++ pre ++ a :: post).map Answer.number).Nodup)
    (he : Expects requests delivered p a.number)
    (hw : Accounted requests delivered a.number pre) (hfuel : pre.length < fuel) :
    ∃ fs', receiveLoop fuel fs p (fs.indexOf p) expectedType false = (.ok (fs'.indexOf p), fs') ∧
      Board requests delivered (some p) (got ++ pre ++ [a]) post fs' ∧ (fs'.packets p).Holds a ∧
      fs'.live = fs.live := by
  induction pre generalizing fs got fuel with
  | nil =>
    obtain ⟨fuel, rfl⟩ : ∃ k, fuel = k + 1 := ⟨fuel - 1, by simp at hfuel; omega⟩
    obtain ⟨fs', hr, hb, hh, hl⟩ := h.expected expectedType he
      (number_not_got (by simpa using hnew) mem_cons_self)
    refine ⟨fs', ?_, by simpa using hb, hh, hl⟩
    rw [receiveLoop, hr]
  | cons b pre ih =>
    obtain ⟨fuel, rfl⟩ : ∃ k, fuel = k + 1 := ⟨fuel - 1, by simp at hfuel; omega⟩
    have hnew' : ((got ++ [b] ++ pre ++ a :: post).map Answer.number).Nodup := by
      simpa only [append_assoc, singleton_append] using hnew
    have hbgot : b.number ∉ got.map Answer.number := by
      rw [append_assoc] at hnew
      exact number_not_got hnew mem_cons_self
    have hba : b.number ≠ a.number := by
      simp only [map_append, map_cons, append_assoc, cons_append] at hnew
      have := (nodup_cons.mp (nodup_append.mp hnew).2.1).1
      intro he
      exact this (by simp [he])
    obtain ⟨x, hx, hxb, hbd⟩ := hw b mem_cons_self hba
    have hslot : x ∈ fs.slots := by
      rw [h.slots]
      rcases x with ⟨m, _ | q⟩ <;> cases hxb
      · exact mem_unanswered_discard.mpr ⟨hx, hbgot⟩
      · exact mem_unanswered_packet.mpr ⟨hx, hbd⟩
    obtain ⟨fs₁, hr, hb, hl⟩ := h.other expectedType hd he hba hslot hxb hbgot
    obtain ⟨fs', hr', hb', hh, hl'⟩ := ih hb hnew' (fun b hb => hw b (mem_cons_of_mem _ hb))
      (show pre.length < fuel by simp at hfuel; omega)
    refine ⟨fs', ?_, by simpa using hb', hh, hl'.trans hl⟩
    rw [receiveLoop, hr]
    exact hr'

/-- What the call returns when it ends: what the check of the type says. -/
def verdict (a : Answer) (expectedType allowStatus : Int) : Except Stop UInt32 :=
  (checkType ((Packet.init 0).received a) expectedType allowStatus).1.mapError .failed

/-- The reservation that is given up at the end of a call. -/
theorem Board.slots_giveUp (h : Board requests delivered busy got unread fs)
    (hd : (requests.map Request.number).Nodup) (he : Expects requests delivered p n) :
    (fs.giveUp (fs.indexOf p)).slots =
      unanswered requests (delivered ++ [n]) (got.map Answer.number) := by
  cases hr : fs.indexOf p with
  | some r =>
    have hmem := (h.own_number he hr).1
    have hslot := mem_unanswered_packet.mp (h.slots ▸ mem_of_getElem? hmem)
    rw [unanswered_deliver hd hslot.1, ← h.slots]
    exact h.slots_remove hd hmem
  | none =>
    rw [unanswered_deliver_caller]
    · exact h.slots
    intro x hx hxn
    have hmem : (n, some p) ∈ fs.slots := by
      rw [h.slots]
      exact mem_unanswered_packet.mpr ⟨hxn ▸ he.slot x hx hxn ▸ hx, he.fresh⟩
    exact indexOf_ne_none h.room hmem hr

theorem Board.release (h : Board requests delivered (some p) got unread fs)
    (hd : (requests.map Request.number).Nodup) (he : Expects requests delivered p n)
    (packet : Packet) : Board requests (delivered ++ [n]) none got unread
      ((fs.giveUp (fs.indexOf p)).setPacket p packet) := by
  have hslots := h.slots_giveUp hd he
  have hmem : ∀ m q, (m, some q) ∈ (fs.giveUp (fs.indexOf p)).slots →
      (m, some q) ∈ fs.slots ∧ q ≠ p := by
    intro m q hq
    obtain ⟨hslot, hm⟩ := mem_unanswered_packet.mp (hslots ▸ hq)
    rw [mem_append, mem_singleton, not_or] at hm
    refine ⟨h.slots ▸ mem_unanswered_packet.mpr ⟨hslot, hm.1⟩, fun hqp => hm.2 ?_⟩
    exact he.own m (hqp ▸ hslot) hm.1
  have hpk : ∀ q, q ≠ p → ((fs.giveUp (fs.indexOf p)).setPacket p packet).packets q =
      fs.packets q := by
    intro q hq
    rw [setPacket_of_ne _ hq]
    cases hr : fs.indexOf p with
    | none => rfl
    | some r =>
      refine removeReservation_of_ne fun hres => hq ?_
      have := (slots_getElem? (h.own_number he hr).1).2
      exact Option.some.inj (Option.some.inj (hres.symm.trans this))
  refine ⟨(giveUp_wire fs _).trans h.wire, giveUp_room _ h.room, hslots, fun m q hq => ?_,
    fun m n q hm hn => h.apart m n q (hmem _ _ hm).1 (hmem _ _ hn).1, fun m q hq _ hm => ?_,
    fun m q hq _ b hb hbm => ?_⟩
  · exact congrFun (giveUp_live fs _) q ▸ h.live m q (hmem m q hq).1
  · obtain ⟨hslot, hne⟩ := hmem m q hq
    rw [hpk q hne]
    exact h.empty m q hslot (fun he => hne (Option.some.inj he)) hm
  · obtain ⟨hslot, hne⟩ := hmem m q hq
    rw [hpk q hne]
    exact h.stored m q hslot (fun he => hne (Option.some.inj he)) b hb hbm

/-- The end of the call takes the reservation away. -/
theorem Board.finish (h : Board requests delivered (some p) got unread fs)
    (hd : (requests.map Request.number).Nodup) (he : Expects requests delivered p a.number)
    (hh : (fs.packets p).Holds a) (expectedType allowStatus : Int) :
    ∃ fs', fs.finishReceive p (fs.indexOf p) expectedType allowStatus false =
        (verdict a expectedType allowStatus, fs') ∧
      Board requests (delivered ++ [a.number]) none got unread fs' ∧ fs'.live = fs.live ∧
      (fs'.packets p).data = a.bytes ∧ (fs'.packets p).messageNumber = a.number := by
  obtain ⟨b, hpacket⟩ := giveUp_packets fs (fs.indexOf p) p
  obtain ⟨position, hafter⟩ :=
    checkType_packet ((fs.giveUp (fs.indexOf p)).packets p) expectedType allowStatus
  have hverdict : (checkType ((fs.giveUp (fs.indexOf p)).packets p) expectedType allowStatus).1 =
      (checkType ((Packet.init 0).received a) expectedType allowStatus).1 := by
    rw [hpacket]
    exact checkType_congr hh.data hh.position hh.type expectedType allowStatus
  refine ⟨(fs.giveUp (fs.indexOf p)).setPacket p
    (checkType ((fs.giveUp (fs.indexOf p)).packets p) expectedType allowStatus).2, ?_,
    h.release hd he _, giveUp_live fs _, ?_, ?_⟩
  · rw [finishReceive, if_neg (by simp), verdict, ← hverdict]
  · rw [setPacket_self, hafter, hpacket]
    exact hh.data
  · rw [setPacket_self, hafter, hpacket]
    exact hh.number

theorem length_le_frames (l : List Answer) :
    l.length ≤ (l.flatMap fun a => frame a.bytes).length := by
  induction l with
  | nil => simp
  | cons a l ih =>
    have hpos : 0 < (frame a.bytes).length := by simp [frame, put32]
    rw [flatMap_cons, length_append, length_cons]
    omega

theorem Board.occupy (h : Board requests delivered none got unread fs) :
    Board requests delivered busy got unread fs :=
  ⟨h.wire, h.room, h.slots, h.live, h.apart, fun n q hq _ => h.empty n q hq (by simp),
    fun n q hq _ => h.stored n q hq (by simp)⟩

/-- A receiving call whose answer was given ends with it. -/
theorem Board.receive (h : Board requests delivered none got unread fs)
    (hd : (requests.map Request.number).Nodup)
    (hnew : ((got ++ unread).map Answer.number).Nodup)
    (he : Expects requests delivered p a.number) (ha : a ∈ got ++ unread)
    (hslot : a ∈ got → (a.number, some p) ∈ fs.slots)
    (hw : Accounted requests delivered a.number unread) (expectedType allowStatus : Int) :
    ∃ fs' pre post, unread = pre ++ post ∧ a ∈ got ++ pre ∧
      fs.receiveResponse a.number p expectedType allowStatus false =
        (verdict a expectedType allowStatus, fs') ∧
      Board requests (delivered ++ [a.number]) none (got ++ pre) post fs' ∧ fs'.live = fs.live ∧
      (fs'.packets p).data = a.bytes ∧ (fs'.packets p).messageNumber = a.number := by
  by_cases hgot : a ∈ got
  · -- the answer was stored in the packet by another call
    have hholds := h.stored _ _ (hslot hgot) (by simp) a hgot rfl
    obtain ⟨fs', hr, hb, hl, hdata, hnum⟩ :=
      Board.finish h.occupy hd he hholds expectedType allowStatus
    refine ⟨fs', [], unread, rfl, by simpa using hgot, receiveResponse_of_number ?_ hnum,
      by simpa using hb, hl, hdata, hnum⟩
    have hcond : ¬ (fs.indexOf p = none ∨ (fs.packets p).capacity = 0) :=
      not_or.mpr ⟨indexOf_ne_none h.room (hslot hgot), hholds.nonempty⟩
    rw [receivePacket, awaitPacket, if_neg hcond]
    exact hr
  · have ha : a ∈ unread := (mem_append.mp ha).resolve_left hgot
    obtain ⟨pre, post, rfl⟩ := append_of_mem ha
    have hnum := number_not_got hnew ha
    have hfuel : pre.length < fs.wire.length + 1 := by
      have := length_le_frames (pre ++ a :: post)
      rw [← h.wire, length_append] at this
      omega
    obtain ⟨fs₁, hloop, hb₁, hholds, hl₁⟩ := Board.loop h.occupy expectedType hd
      (by simpa using hnew) he (fun b hb => hw b (mem_append_left _ hb)) hfuel
    obtain ⟨fs', hr, hb, hl, hdata, hnum'⟩ := hb₁.finish hd he hholds expectedType allowStatus
    refine ⟨fs', pre ++ [a], post, by simp, by simp, receiveResponse_of_number ?_ hnum',
      by simpa using hb, hl.trans hl₁, hdata, hnum'⟩
    have hcond : fs.indexOf p = none ∨ (fs.packets p).capacity = 0 := by
      cases hi : fs.indexOf p with
      | none => exact .inl rfl
      | some r =>
        have hmem := mem_of_getElem? (h.own_number he hi).1
        exact .inr (h.empty _ _ hmem (by simp) hnum)
    rw [receivePacket, awaitPacket, if_pos hcond, hloop]
    exact hr

end NetBox.Sftp.Matching
