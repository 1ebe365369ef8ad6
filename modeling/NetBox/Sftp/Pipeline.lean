import NetBox.Lib.Run
import NetBox.Sftp.Download
import Mathlib.Data.List.Infix

/-! # The pipeline of read requests

`TSFTPDownloadQueue` sends read requests ahead of their answers. A request is put into
`FRequests` with its block size as token, and a packet for its answer at the same place of
`FResponses`; `ReceivePacket` takes the first of both. `FMissedRequests` says how many more
requests may be sent.

A request has the number it has among those of the queue. What `DownloadBlockSize` returns is
given for each of its calls. Offsets are integers, far from the limits of `int64_t`.
-/
namespace NetBox.Sftp.Pipeline
open Lib.Run List

/-- What `Init` is given, and the block sizes that will be chosen. -/
structure Transfer where
  offset : Int
  /-- Negative when the file is not transferred in parts. -/
  partSize : Int
  queueLen : Nat
  blockSize : Nat → UInt32

/-- A read request with its token. -/
structure QueuePacket where
  number : Nat
  offset : Int
  size : UInt32
  token : UInt32

structure Queue where
  requests : List QueuePacket := []
  /-- The numbers of the requests whose answers the packets in `FResponses` are reserved for. -/
  responses : List Nat := []
  transferred : Int
  missedRequests : Nat
  /-- How often a block size was asked for. -/
  calls : Nat := 0
  /-- The requests sent so far. -/
  sent : List QueuePacket := []
  /-- The answers returned so far, with the block sizes returned along. -/
  answers : List (Nat × UInt32) := []

namespace Transfer
variable (t : Transfer)

/-- The block size `InitRequest` arrives at. -/
def requestSize (q : Queue) : UInt32 :=
  let blockSize := t.blockSize q.calls
  let remaining := t.offset + t.partSize - q.transferred
  if 0 ≤ t.partSize ∧ remaining < blockSize.toNat then UInt32.ofInt remaining else blockSize

def sendRequest (q : Queue) : Option Queue :=
  let blockSize := t.requestSize q
  if 0 < blockSize then
    let request := ⟨q.sent.length, q.transferred, blockSize, blockSize⟩
    some { q with
      requests := q.requests ++ [request]
      responses := q.responses ++ [request.number]
      transferred := q.transferred + blockSize.toNat
      calls := q.calls + 1
      sent := q.sent ++ [request] }
  else none

/-- The loop of `SendRequests`, on the requests that were missed. -/
def sendLoop : Nat → Queue → Queue
  | 0, q => { q with missedRequests := 0 }
  | missed + 1, q =>
    match t.sendRequest q with
    | some q' => sendLoop missed q'
    | none => { q with missedRequests := missed + 1, calls := q.calls + 1 }

def sendRequests (q : Queue) : Queue :=
  t.sendLoop (q.missedRequests + 1) q

def init : Queue :=
  t.sendRequests { transferred := t.offset, missedRequests := t.queueLen - 1 }

/-- What `ReceiveResponse` comes back with. -/
inductive Response
  | data
  | eof
  /-- An exception, which leaves the request removed. -/
  | error
deriving DecidableEq

def receivePacket (q : Queue) (response : Response) : Option Queue :=
  match q.requests, q.responses with
  | request :: requests, number :: responses =>
    let q' := { q with requests, responses }
    let answered := { q' with answers := q.answers ++ [(number, request.token)] }
    match response with
    | .data => some (t.sendRequests answered)
    | .eof => some answered
    | .error => some q'
  | _, _ => none

end Transfer

/-! ## Ranges one behind the other -/

/-- The requests ask for the bytes from one position to another, each from where the one
before it ends. -/
def Consecutive : Int → List QueuePacket → Int → Prop
  | position, [], last => position = last
  | position, p :: rest, last =>
    p.offset = position ∧ 0 < p.size ∧ Consecutive (position + p.size.toNat) rest last

variable {position last x : Int} {l : List QueuePacket} {p : QueuePacket}

theorem Consecutive.append (h : Consecutive position l last) (ho : p.offset = last)
    (hp : 0 < p.size) : Consecutive position (l ++ [p]) (last + p.size.toNat) := by
  induction l generalizing position with
  | nil =>
    cases h
    exact ⟨ho, hp, rfl⟩
  | cons r rest ih => exact ⟨h.1, h.2.1, ih h.2.2⟩

/-- The distance grows by a byte at least with each request. -/
theorem Consecutive.length_le (h : Consecutive position l last) :
    position + l.length ≤ last := by
  induction l generalizing position with
  | nil => simp_all [Consecutive]
  | cons r rest ih =>
    have hrest := ih h.2.2
    have hpos : 0 < r.size.toNat := UInt32.lt_iff_toNat_lt.mp h.2.1
    simp only [length_cons, Int.natCast_add, Int.natCast_one]
    omega

theorem Consecutive.mem (h : Consecutive position l last) (hp : p ∈ l) :
    position ≤ p.offset ∧ p.offset + p.size.toNat ≤ last := by
  induction l generalizing position with
  | nil => cases hp
  | cons r rest ih =>
    obtain ⟨ho, -, hrest⟩ := h
    cases hp with
    | head =>
      have hlen := hrest.length_le
      omega
    | tail _ hp =>
      have hmem := ih hrest hp
      omega

theorem Consecutive.disjoint (h : Consecutive position l last) :
    l.Pairwise fun (a b : QueuePacket) => a.offset + a.size.toNat ≤ b.offset := by
  induction l generalizing position with
  | nil => exact .nil
  | cons r rest ih =>
    obtain ⟨ho, -, hrest⟩ := h
    refine .cons ?_ (ih hrest)
    intro b hb
    have hmem := hrest.mem hb
    omega

theorem Consecutive.covers (h : Consecutive position l last) (hx : position ≤ x) (hl : x < last) :
    ∃ p ∈ l, p.offset ≤ x ∧ x < p.offset + p.size.toNat := by
  induction l generalizing position with
  | nil =>
    cases h
    omega
  | cons r rest ih =>
    obtain ⟨ho, -, hrest⟩ := h
    by_cases hr : x < position + r.size.toNat
    · exact ⟨r, mem_cons_self, by omega, by omega⟩
    · obtain ⟨p, hp, hin⟩ := ih hrest (by omega)
      exact ⟨p, mem_cons_of_mem r hp, hin⟩

/-! ## What is kept -/

/-- What holds of a queue at any time. -/
structure Kept (t : Transfer) (q : Queue) : Prop where
  consecutive : Consecutive t.offset q.sent q.transferred
  within : 0 ≤ t.partSize → q.transferred ≤ t.offset + t.partSize
  waiting : q.requests <:+ q.sent
  reserved : q.responses = q.requests.map (·.number)
  numbered : ∀ (i : Nat) (p : QueuePacket), q.sent[i]? = some p → p.number = i
  token : ∀ p ∈ q.sent, p.token = p.size
  answered : ∀ a ∈ q.answers, ∃ p, q.sent[a.1]? = some p ∧ a.2 = p.size

variable {t : Transfer} {q q' : Queue}

/-- A request that is cut is cut to what is left of the part. -/
theorem requestSize_toNat (h : Kept t q) :
    (t.requestSize q = t.blockSize q.calls ∧
      (0 ≤ t.partSize → q.transferred + (t.requestSize q).toNat ≤ t.offset + t.partSize)) ∨
    (0 ≤ t.partSize ∧ q.transferred + (t.requestSize q).toNat = t.offset + t.partSize ∧
      (t.requestSize q).toNat < (t.blockSize q.calls).toNat) := by
  unfold Transfer.requestSize
  dsimp only
  split
  · next hcut =>
    have hrem := h.within hcut.1
    have hlt := (t.blockSize q.calls).toNat_lt
    right
    refine ⟨hcut.1, ?_⟩
    generalize hr : t.offset + t.partSize - q.transferred = r at hcut
    lift r to Nat using (by omega)
    have hsize : (UInt32.ofInt (r : Int)).toNat = r := by
      change (UInt32.ofNat ((r : Int) % 2 ^ 32).toNat).toNat = r
      rw [UInt32.toNat_ofNat']
      omega
    omega
  · next hcut =>
    left
    refine ⟨rfl, ?_⟩
    intro hpart
    omega

/-- What sending a request does. -/
theorem sendRequest_some (hs : t.sendRequest q = some q') :
    0 < t.requestSize q ∧
      let request := ⟨q.sent.length, q.transferred, t.requestSize q, t.requestSize q⟩
      q' = { q with
        requests := q.requests ++ [request]
        responses := q.responses ++ [request.number]
        transferred := q.transferred + (t.requestSize q).toNat
        calls := q.calls + 1
        sent := q.sent ++ [request] } := by
  unfold Transfer.sendRequest at hs
  dsimp only at hs
  split at hs
  · next hpos =>
    cases hs
    exact ⟨hpos, rfl⟩
  · cases hs

theorem Kept.sendRequest (h : Kept t q) (hs : t.sendRequest q = some q') : Kept t q' := by
  obtain ⟨hpos, rfl⟩ := sendRequest_some hs
  refine ⟨h.consecutive.append rfl hpos, ?_, ?_, ?_, ?_, ?_, ?_⟩
  · intro hpart
    obtain ⟨-, hle⟩ | ⟨-, heq, -⟩ := requestSize_toNat h
    · exact hle hpart
    · exact Int.le_of_eq heq
  · obtain ⟨front, hfront⟩ := h.waiting
    exact ⟨front, by rw [← hfront, append_assoc]⟩
  · simp [h.reserved]
  · intro i p hp
    rw [getElem?_append] at hp
    split at hp
    · exact h.numbered i p hp
    · obtain ⟨hi, rfl⟩ := List.getElem?_eq_some_iff.mp hp
      simp only [length_singleton] at hi
      simp only [getElem_singleton]
      omega
  · intro p hp
    rcases mem_append.mp hp with hp | hp
    · exact h.token p hp
    · cases mem_singleton.mp hp
      rfl
  · intro a ha
    obtain ⟨p, hp, hsize⟩ := h.answered a ha
    obtain ⟨hlt, -⟩ := List.getElem?_eq_some_iff.mp hp
    exact ⟨p, by rw [getElem?_append_left hlt, hp], hsize⟩

theorem Kept.sendLoop (h : Kept t q) (missed : Nat) : Kept t (t.sendLoop missed q) := by
  induction missed generalizing q with
  | zero => exact ⟨h.1, h.2, h.3, h.4, h.5, h.6, h.7⟩
  | succ missed ih =>
    rw [Transfer.sendLoop]
    split
    · next hs => exact ih (h.sendRequest hs)
    · exact ⟨h.1, h.2, h.3, h.4, h.5, h.6, h.7⟩

/-- A request sent is one missed no longer. -/
theorem sendLoop_length (t : Transfer) (missed : Nat) (q : Queue) :
    (t.sendLoop missed q).requests.length + (t.sendLoop missed q).missedRequests =
      q.requests.length + missed := by
  induction missed generalizing q with
  | zero => rfl
  | succ missed ih =>
    rw [Transfer.sendLoop]
    split
    · next q' hs =>
      obtain ⟨-, rfl⟩ := sendRequest_some hs
      rw [ih, length_append, length_singleton]
      omega
    · rfl

/-- Requests are missed only when the part has been asked for. -/
theorem sendLoop_missed (hb : ∀ n, 0 < t.blockSize n) (h : Kept t q) (missed : Nat)
    (hm : 0 < (t.sendLoop missed q).missedRequests) :
    (t.sendLoop missed q).transferred = t.offset + t.partSize := by
  induction missed generalizing q with
  | zero => exact absurd hm (Nat.lt_irrefl 0)
  | succ missed ih =>
    rw [Transfer.sendLoop] at hm ⊢
    cases hs : t.sendRequest q with
    | some q' =>
      rw [hs] at hm
      exact ih (h.sendRequest hs) hm
    | none =>
      have hzero : t.requestSize q = 0 := by
        simpa [Transfer.sendRequest, UInt32.pos_iff_ne_zero] using hs
      obtain ⟨hfull, -⟩ | ⟨-, heq, -⟩ := requestSize_toNat h
      · have hpos := hb q.calls
        rw [← hfull, hzero] at hpos
        exact absurd hpos (UInt32.lt_irrefl 0)
      · rw [hzero] at heq
        simpa using heq

/-- The queue without its first request and response, whose answer may have been returned. -/
theorem Kept.pop (h : Kept t q) {request : QueuePacket} {requests : List QueuePacket}
    {number : Nat} {responses : List Nat} (hq : q.requests = request :: requests)
    (hr : q.responses = number :: responses) :
    Kept t { q with requests, responses } ∧
    Kept t { q with
      requests, responses, answers := q.answers ++ [(number, request.token)] } := by
  have hmem : request ∈ q.sent := h.waiting.subset (hq ▸ mem_cons_self)
  have hwait : requests <:+ q.sent := (hq ▸ suffix_cons request requests).trans h.waiting
  have hres : number = request.number ∧ responses = requests.map (·.number) := by
    have hmap := h.reserved
    rw [hq, hr, map_cons] at hmap
    exact List.cons.inj hmap
  refine ⟨⟨h.1, h.2, hwait, hres.2, h.5, h.6, h.7⟩, h.1, h.2, hwait, hres.2, h.5, h.6, ?_⟩
  intro a ha
  rcases mem_append.mp ha with ha | ha
  · exact h.answered a ha
  · cases mem_singleton.mp ha
    obtain ⟨i, hi⟩ := mem_iff_getElem?.mp hmem
    refine ⟨request, ?_, h.token request hmem⟩
    rw [hres.1, h.numbered i request hi, hi]

/-- What a call of `ReceivePacket` does. -/
theorem receivePacket_cases {response : Transfer.Response}
    (hs : t.receivePacket q response = some q') :
    ∃ request requests number responses, q.requests = request :: requests ∧
      q.responses = number :: responses ∧
      let answered := { q with
        requests, responses, answers := q.answers ++ [(number, request.token)] }
      (response = .data ∧ q' = t.sendRequests answered) ∨
      (response = .eof ∧ q' = answered) ∨
      (response = .error ∧ q' = { q with requests, responses }) := by
  unfold Transfer.receivePacket at hs
  split at hs
  · next request requests number responses hq hr =>
    refine ⟨request, requests, number, responses, hq, hr, ?_⟩
    cases response <;> simp_all
  · cases hs

/-- What is outstanding and what may still be sent fit into the queue. -/
structure Bounded (t : Transfer) (q : Queue) : Prop extends Kept t q where
  outstanding : q.requests.length + q.missedRequests ≤ t.queueLen

/-- As long as data comes, every place of the queue is taken or missed, and one is missed only
when the part has been asked for. -/
structure Full (t : Transfer) (q : Queue) : Prop extends Kept t q where
  all : q.requests.length + q.missedRequests = t.queueLen
  missed : 0 < q.missedRequests → q.transferred = t.offset + t.partSize

theorem Full.bounded (h : Full t q) : Bounded t q :=
  ⟨h.toKept, Nat.le_of_eq h.all⟩

theorem kept_start (t : Transfer) :
    Kept t { transferred := t.offset, missedRequests := t.queueLen - 1 } := by
  refine ⟨rfl, ?_, suffix_refl _, rfl, by simp, by simp, by simp⟩
  intro hpart
  exact Int.le_add_of_nonneg_right hpart

theorem full_init (hq : 1 ≤ t.queueLen) (hb : ∀ n, 0 < t.blockSize n) : Full t t.init := by
  have hstart := kept_start t
  rw [Transfer.init, Transfer.sendRequests]
  refine ⟨hstart.sendLoop _, ?_, sendLoop_missed hb hstart _⟩
  rw [sendLoop_length]
  simp only [length_nil]
  omega

theorem Full.receivePacket (hb : ∀ n, 0 < t.blockSize n) (h : Full t q)
    (hs : t.receivePacket q .data = some q') : Full t q' := by
  obtain ⟨request, requests, number, responses, hq, hr, hcase⟩ := receivePacket_cases hs
  have hpop := (h.toKept.pop hq hr).2
  have hall := h.all
  rw [hq, length_cons] at hall
  simp only [true_and, reduceCtorEq, false_and, or_false] at hcase
  subst hcase
  rw [Transfer.sendRequests]
  refine ⟨hpop.sendLoop _, ?_, sendLoop_missed hb hpop _⟩
  rw [sendLoop_length]
  simp only
  omega

theorem Bounded.receivePacket (h : Bounded t q) {response : Transfer.Response}
    (hs : t.receivePacket q response = some q') : Bounded t q' := by
  obtain ⟨request, requests, number, responses, hq, hr, hcase⟩ := receivePacket_cases hs
  have hpop := h.toKept.pop hq hr
  have hout := h.outstanding
  rw [hq, length_cons] at hout
  rcases hcase with ⟨-, rfl⟩ | ⟨-, rfl⟩ | ⟨-, rfl⟩
  · refine ⟨hpop.2.sendLoop _, ?_⟩
    rw [Transfer.sendRequests, sendLoop_length]
    simp only
    omega
  · exact ⟨hpop.2, by simp only; omega⟩
  · exact ⟨hpop.1, by simp only; omega⟩

/-! ## The pipeline -/

/-- What a download may rely on. -/
structure Pipelined (t : Transfer) (q : Queue) : Prop where
  consecutive : Consecutive t.offset q.sent q.transferred
  disjoint : q.sent.Pairwise fun (a b : QueuePacket) => a.offset + a.size.toNat ≤ b.offset
  within : 0 ≤ t.partSize → ∀ p ∈ q.sent, p.offset + p.size.toNat ≤ t.offset + t.partSize
  /-- Nothing is asked for forever. -/
  few : 0 ≤ t.partSize → q.sent.length ≤ t.partSize
  outstanding : q.requests.length ≤ t.queueLen
  paired : ∀ a ∈ q.answers, ∃ p, q.sent[a.1]? = some p ∧ p.number = a.1 ∧ a.2 = p.size

theorem Bounded.pipelined (h : Bounded t q) : Pipelined t q := by
  have hlen := h.consecutive.length_le
  refine ⟨h.consecutive, h.consecutive.disjoint, ?_, ?_, ?_, ?_⟩
  · intro hpart p hp
    exact Int.le_trans (h.consecutive.mem hp).2 (h.within hpart)
  · intro hpart
    have hwithin := h.within hpart
    omega
  · have hout := h.outstanding
    omega
  · intro a ha
    obtain ⟨p, hp, hsize⟩ := h.answered a ha
    exact ⟨p, hp, h.numbered _ p hp, hsize⟩

/-- With no request outstanding and all of them answered, every byte was asked for. -/
theorem Full.covers (h : Full t q) (hlen : 1 ≤ t.queueLen) (hq : q.requests = []) (x : Int)
    (hx : t.offset ≤ x) (hl : x < t.offset + t.partSize) :
    ∃ p ∈ q.sent, p.offset ≤ x ∧ x < p.offset + p.size.toNat := by
  have hall := h.all
  rw [hq, length_nil] at hall
  have hend := h.missed (by omega)
  exact h.consecutive.covers hx (by omega)

/-- The requests of a download tile its part: whatever block sizes are chosen and whatever
comes back, they ask for ranges one behind the other from the offset on, not beyond the part,
no more of them are outstanding than the queue is long, and an answer is returned with the
block size of its own request. When data came back for all of them, the whole part was asked
for. -/
theorem download_pipelined (t : Transfer) (hq : 1 ≤ t.queueLen) (hb : ∀ n, 0 < t.blockSize n) :
    (∀ q, Reaches t.receivePacket (fun _ _ => True) t.init q → Pipelined t q) ∧
    ∀ q, Reaches t.receivePacket (fun _ response => response = .data) t.init q →
      q.requests = [] → ∀ x, t.offset ≤ x → x < t.offset + t.partSize →
        ∃ p ∈ q.sent, p.offset ≤ x ∧ x < p.offset + p.size.toNat := by
  have hinit := full_init hq hb
  refine ⟨?_, ?_⟩
  · intro q hreach
    have hbounded : Bounded t q := hreach.invariant hinit.bounded
      fun _ _ _ h _ hs => h.receivePacket hs
    exact hbounded.pipelined
  · intro q hreach hempty
    have hfull : Full t q := hreach.invariant hinit
      fun _ _ _ h hdata hs => h.receivePacket hb (hdata ▸ hs)
    exact hfull.covers hq hempty

theorem download_pipelined_five : ∃ (t : Transfer) (q : Queue), t.partSize = 5 ∧
    Reaches t.receivePacket (fun _ response => response = .data) t.init q ∧
    q.answers = [(0, 2), (1, 2), (2, 1)] ∧ Pipelined t t.init ∧
    ∃ p ∈ q.sent, p.offset ≤ 14 ∧ 14 < p.offset + p.size.toNat := by
  let t : Transfer := ⟨10, 5, 2, fun _ => 2⟩
  have hrun : (runs t.receivePacket (fun _ response => response = .data) t.init
      [.data, .data, .data]).map (fun q => (q.requests.length, q.answers)) =
      some (0, [(0, 2), (1, 2), (2, 1)]) := by decide +kernel
  obtain ⟨q, hdata, hq⟩ := exists_reaches hrun
  obtain ⟨hempty, hanswers⟩ := Prod.mk.inj hq
  have htwo : (0 : UInt32) < 2 := by decide
  have hpipe := download_pipelined t (by decide) fun _ => htwo
  exact ⟨t, q, rfl, hdata, hanswers, hpipe.1 _ .refl,
    hpipe.2 q hdata (List.eq_nil_of_length_eq_zero hempty) 14 (by decide) (by decide)⟩

/-! ## The queue of a download

`Download` keeps what its loop needs of the queue: position and size of the requests that
wait. As long as data comes that is what the pipeline shows.
-/

/-- What `Init` is given for a download. -/
def ofJob (d : Download.Job) : Transfer where
  offset := d.offset
  partSize := d.partSize
  queueLen := d.queueLen
  blockSize n := UInt32.ofNat (d.blockSize n)

def Queue.view (q : Queue) : Download.Queue where
  requests := q.requests.map fun p => ⟨p.offset.toNat, p.size.toNat⟩
  transferred := q.transferred.toNat
  missedRequests := q.missedRequests
  calls := q.calls

section View

variable {d : Download.Job}

/-- The loop of the download counts as it goes, the one of the pipeline at the end. -/
theorem sendRequests_missed (missed : Nat) (v : Download.Queue) (k : Nat) :
    d.sendRequests missed { v with missedRequests := k } = d.sendRequests missed v := by
  cases missed <;> rfl

theorem sendLoop_answers (t : Transfer) (missed : Nat) (q : Queue) :
    (t.sendLoop missed q).answers = q.answers := by
  induction missed generalizing q with
  | zero => rfl
  | succ missed ih =>
    rw [Transfer.sendLoop]
    split
    · next q' hs =>
      obtain ⟨-, rfl⟩ := sendRequest_some hs
      exact ih _
    · rfl

variable (hblock : ∀ n, d.blockSize n < UInt32.size)
include hblock

theorem requestSize_view (h : Kept (ofJob d) q) :
    ((ofJob d).requestSize q).toNat = d.requestSize q.view := by
  have hlen : (d.offset : Int) + q.sent.length ≤ q.transferred := h.consecutive.length_le
  have hview : (q.view.transferred : Int) = q.transferred := Int.toNat_of_nonneg (by omega)
  have hsize : ((ofJob d).blockSize q.calls).toNat = d.blockSize q.view.calls :=
    UInt32.toNat_ofNat_of_lt' (hblock q.calls)
  have hcut := requestSize_toNat h
  generalize (ofJob d).requestSize q = size at hcut ⊢
  change size = _ ∧ (0 ≤ d.partSize → _ ≤ d.offset + d.partSize) ∨
    0 ≤ d.partSize ∧ _ = d.offset + d.partSize ∧ _ at hcut
  rw [Download.Job.requestSize]
  dsimp only
  obtain ⟨rfl, hle⟩ | ⟨hpart, heq, hlt⟩ := hcut
  · split
    · split <;> omega
    · exact hsize
  · rw [if_pos hpart]
    split <;> omega

theorem sendLoop_view (h : Kept (ofJob d) q) (missed : Nat) :
    ((ofJob d).sendLoop missed q).view = d.sendRequests missed q.view := by
  induction missed generalizing q with
  | zero => rfl
  | succ missed ih =>
    have hlen : (d.offset : Int) + q.sent.length ≤ q.transferred := h.consecutive.length_le
    rw [Transfer.sendLoop, Download.Job.sendRequests, ← requestSize_view hblock h]
    cases hs : (ofJob d).sendRequest q with
    | some q' =>
      dsimp only
      rw [ih (h.sendRequest hs), ← sendRequests_missed missed _ missed]
      obtain ⟨hpos, rfl⟩ := sendRequest_some hs
      have hpos : ((ofJob d).requestSize q).toNat > 0 := UInt32.lt_iff_toNat_lt.mp hpos
      rw [if_pos hpos]
      simp only [Queue.view, map_append, map_cons, map_nil]
      rw [Int.toNat_add (by omega) (Int.natCast_nonneg _), Int.toNat_natCast]
    | none =>
      have hzero : (ofJob d).requestSize q = 0 := by
        simpa [Transfer.sendRequest, UInt32.pos_iff_ne_zero] using hs
      rw [hzero]
      rfl

/-- A download's queue is what its pipeline shows, however much data has come. -/
theorem download_queue_view (hq : 1 ≤ d.queueLen)
    (h : Reaches (ofJob d).receivePacket (fun _ response => response = .data) (ofJob d).init q) :
    q.view = d.advance^[q.answers.length] d.initQueue := by
  have hstart := kept_start (ofJob d)
  refine (h.invariant
    (P := fun q => Kept (ofJob d) q ∧ q.view = d.advance^[q.answers.length] d.initQueue)
    ⟨hstart.sendLoop _, ?_⟩ ?_).2
  · rw [Transfer.init, Transfer.sendRequests, sendLoop_view hblock hstart, sendLoop_answers,
      Download.Job.initQueue, ← sendRequests_missed d.queueLen _ (d.queueLen - 1)]
    show d.sendRequests (d.queueLen - 1 + 1) _ = _
    rw [Nat.sub_add_cancel hq]
    rfl
  · rintro q response q' ⟨hkept, hview⟩ rfl hs
    obtain ⟨request, requests, number, responses, hq, hr, hcase⟩ := receivePacket_cases hs
    simp only [true_and, reduceCtorEq, false_and, or_false] at hcase
    subst hcase
    have hpop := (hkept.pop hq hr).2
    refine ⟨hpop.sendLoop _, ?_⟩
    rw [Transfer.sendRequests, sendLoop_view hblock hpop, sendLoop_answers, length_append,
      length_singleton, Function.iterate_succ_apply', ← hview, Download.Job.advance]
    simp only [Queue.view, hq, map_cons, tail_cons]

end View

end NetBox.Sftp.Pipeline
