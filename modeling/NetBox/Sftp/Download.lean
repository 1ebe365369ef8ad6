import Mathlib.Data.List.Basic
import Mathlib.Logic.Function.Iterate

/-! # Downloading with short reads

The loop of `Sink` for a binary file: read requests for consecutive blocks are
sent ahead, their answers come in order, and when an answer is shorter than its
block the missing bytes are requested on their own before the next answer is
taken. A server answers a request with any non-empty beginning of the bytes
asked for, or with end-of-file behind the last byte.

Sizes and offsets are natural numbers here, far from the limits of the types
they have. Cancelling, text mode and decryption are left out.
-/
namespace NetBox.Sftp.Download

open List

/-- What a download is given, and what the server does with the requests: how
many bytes it is willing to send in answer to the n-th block or gap request, and
the end-of-file flag that versions from 6 on may send along. -/
structure Job where
  file : List UInt8
  /-- The bytes counted as transferred before the queue is initialised. -/
  resumed : Nat
  partOffset : Int
  partSize : Int
  /-- The size of the file as it was listed. -/
  transferSize : Nat
  queueLen : Nat
  /-- `DownloadBlockSize`, at its n-th call. -/
  blockSize : Nat → Nat
  version : Nat
  blockLen : Nat → Nat
  blockEof : Nat → Option Bool
  gapLen : Nat → Nat
  gapEof : Nat → Option Bool

inductive Response
  | eof
  | data (bytes : List UInt8) (atEnd : Option Bool)

structure Progress where
  transferredSize : Nat
  transferSize : Nat

def Progress.addTransferred (p : Progress) (size : Nat) : Progress :=
  let transferredSize := p.transferredSize + size
  { transferredSize
    transferSize := if transferredSize > p.transferSize then transferredSize else p.transferSize }

structure ReadRequest where
  offset : Nat
  size : Nat

/-- `TSFTPDownloadQueue` -/
structure Queue where
  requests : List ReadRequest
  /-- `FTransferred`, the offset of the next request. -/
  transferred : Nat
  missedRequests : Nat
  /-- How often a block size was asked for. -/
  calls : Nat

/-- A request that fills a gap, with the number of bytes written before it. -/
structure GapFill where
  offset : Nat
  size : Nat
  position : Nat

inductive Error
  | incompleteBeforeEof
  | emptyQueue
deriving DecidableEq

inductive Status
  | running
  | finished
  | failed (error : Error)
deriving DecidableEq

/-- The variables of the loop, what was written to the local file, and the gap
requests made. -/
structure Sink where
  queue : Queue
  progress : Progress
  written : List UInt8 := []
  missing : Nat := 0
  prevIncomplete : Bool := false
  blockSize : Nat := 0
  received : Nat := 0
  gapFills : List GapFill := []
  status : Status := .running

namespace Job

/-- The answer to a request by a server willing to send so many bytes. -/
def answer (d : Job) (offset size willing : Nat) (atEnd : Option Bool) : Response :=
  if d.file.length ≤ offset then .eof
  else .data ((d.file.drop offset).take (min (max 1 willing) size)) atEnd

/-- The progress after `AddResumed`. -/
def progress (d : Job) : Progress :=
  { transferredSize := 0, transferSize := d.transferSize : Progress }.addTransferred d.resumed

def offset (d : Job) : Nat :=
  d.progress.transferredSize + (max d.partOffset 0).toNat

/-- The size of the next request, zero when there is nothing left of the part. -/
def requestSize (d : Job) (q : Queue) : Nat :=
  let blockSize := d.blockSize q.calls
  if d.partSize ≥ 0 then
    let remaining : Int := d.offset + d.partSize - q.transferred
    if remaining < blockSize then remaining.toNat else blockSize
  else blockSize

/-- The loop of `SendRequests`, on the requests that were missed. -/
def sendRequests (d : Job) : Nat → Queue → Queue
  | 0, q => { q with missedRequests := 0 }
  | missed + 1, q =>
    let size := d.requestSize q
    if size > 0 then
      d.sendRequests missed {
        requests := q.requests ++ [⟨q.transferred, size⟩]
        transferred := q.transferred + size
        missedRequests := missed
        calls := q.calls + 1 }
    else { q with missedRequests := missed + 1, calls := q.calls + 1 }

def initQueue (d : Job) : Queue :=
  d.sendRequests d.queueLen { requests := [], transferred := d.offset, missedRequests := 0, calls := 0 }

/-- The queue after its first answer was received, with one more request due. -/
def advance (d : Job) (q : Queue) : Queue :=
  d.sendRequests (q.missedRequests + 1) { q with requests := q.requests.tail }

/-- What is missing after an answer, and whether it is incomplete without
anything missing, which is taken for the end of the file. -/
def account (s : Sink) (dataLen : Nat) : Nat × Bool :=
  if s.missing > 0 then (s.missing - dataLen, false)
  else if dataLen < s.blockSize then
    if s.progress.transferredSize + dataLen ≠ s.progress.transferSize then
      (s.blockSize - dataLen, false)
    else (0, true)
  else (0, false)

/-- The loop ends behind an answer: the server says so, or the part is complete. -/
abbrev Ends (d : Job) (missing : Nat) (atEnd : Option Bool) (transferredSize : Nat) : Prop :=
  (d.version ≥ 6 ∧ missing = 0 ∧ atEnd = some true) ∨
    (d.partSize ≥ 0 ∧ transferredSize ≥ d.partSize)

/-- The bytes of an answer are counted and written. -/
def store (d : Job) (s : Sink) (bytes : List UInt8) (atEnd : Option Bool) : Sink :=
  let (missing, prevIncomplete) := account s bytes.length
  let progress := s.progress.addTransferred bytes.length
  { s with
    missing
    prevIncomplete
    progress
    written := s.written ++ bytes
    status := if d.Ends missing atEnd progress.transferredSize then .finished else .running }

/-- The part of the loop behind receiving an answer. -/
def process (d : Job) (s : Sink) : Response → Sink
  | .eof => { s with status := .finished }
  | .data bytes atEnd =>
    if s.missing = 0 ∧ s.prevIncomplete = true then
      { s with status := .failed .incompleteBeforeEof }
    else d.store s bytes atEnd

/-- A pass that requests what is missing and takes the answer. -/
def fillGap (d : Job) (s : Sink) : Sink :=
  let offset := d.offset + s.progress.transferredSize
  let gap := s.gapFills.length
  d.process { s with gapFills := s.gapFills ++ [⟨offset, s.missing, s.written.length⟩] }
    (d.answer offset s.missing (d.gapLen gap) (d.gapEof gap))

/-- A pass that takes the answer to the first request in the queue. A further
request is sent unless the answer is the end of the file. -/
def takeBlock (d : Job) (s : Sink) (r : ReadRequest) : Sink :=
  let blockSize := r.size
  let received := s.received + 1
  match d.answer r.offset r.size (d.blockLen s.received) (d.blockEof s.received) with
  | .eof =>
    let queue := { s.queue with requests := s.queue.requests.tail }
    d.process { s with queue, blockSize, received } .eof
  | .data bytes atEnd =>
    let queue := d.advance s.queue
    d.process { s with queue, blockSize, received } (.data bytes atEnd)

/-- One pass of the loop. -/
def pass (d : Job) (s : Sink) : Sink :=
  match s.status with
  | .running =>
    if s.missing > 0 then d.fillGap s
    else
      match s.queue.requests with
      | [] => { s with status := .failed .emptyQueue }
      | r :: _ => d.takeBlock s r
  | _ => s

def start (d : Job) : Sink :=
  { queue := d.initQueue, progress := d.progress }

/-- The state of the loop after so many passes. -/
def sink (d : Job) (passes : Nat) : Sink :=
  d.pass^[passes] d.start

end Job

variable {d : Job} {s : Sink} {r : ReadRequest} {rest : List ReadRequest} {q : Queue}

/-! ## The queue -/

/-- The requests follow each other from one offset to another. -/
def Linked : Nat → List ReadRequest → Nat → Prop
  | position, [], last => position = last
  | position, r :: rest, last => r.offset = position ∧ Linked (position + r.size) rest last

theorem Linked.append {position last size : Nat} {requests : List ReadRequest}
    (h : Linked position requests last) :
    Linked position (requests ++ [⟨last, size⟩]) (last + size) := by
  induction requests generalizing position with
  | nil =>
    cases h
    exact ⟨rfl, rfl⟩
  | cons r rest ih => exact ⟨h.1, ih h.2⟩

/-- Requests are only added, right behind the last one. -/
theorem Linked.sendRequests {position missed : Nat} (h : Linked position q.requests q.transferred) :
    Linked position (d.sendRequests missed q).requests (d.sendRequests missed q).transferred := by
  induction missed generalizing q with
  | zero => exact h
  | succ missed ih =>
    rw [Job.sendRequests]
    split
    · exact ih h.append
    · exact h

theorem Linked.advance {position : Nat} (h : Linked position q.requests q.transferred)
    (hq : q.requests = r :: rest) :
    Linked (position + r.size) (d.advance q).requests (d.advance q).transferred := by
  rw [hq] at h
  refine Linked.sendRequests ?_
  simpa [hq] using h.2

/-! ## What is written -/

/-- Every byte written is the remote one at its position, and gaps are filled
from the position of the next byte. -/
structure Faithful (d : Job) (s : Sink) : Prop where
  bytes : s.written = (d.file.drop d.offset).take s.written.length
  gaps : ∀ g ∈ s.gapFills, g.offset = d.offset + g.position

/-- The counters say how much was written. -/
structure Counted (d : Job) (s : Sink) : Prop extends Faithful d s where
  counted : s.progress.transferredSize = d.resumed + s.written.length
  known : s.progress.transferSize =
    max (max d.transferSize d.resumed) (d.resumed + s.written.length)

/-- The next request in the queue is for what comes behind the gap. -/
structure Steady (d : Job) (s : Sink) : Prop extends Counted d s where
  aligned : s.status = .running → s.prevIncomplete = false →
    Linked (d.offset + s.written.length + s.missing) s.queue.requests s.queue.transferred
  complete : s.prevIncomplete = true → s.missing = 0

theorem slice_append {file written bytes : List UInt8} {offset k : Nat}
    (h : written = (file.drop offset).take written.length)
    (hb : bytes = (file.drop (offset + written.length)).take k) :
    written ++ bytes = (file.drop offset).take (written ++ bytes).length := by
  have hlen : bytes = (file.drop (offset + written.length)).take bytes.length := by
    rw [hb, length_take, take_eq_take_iff]
    omega
  rw [length_append, take_add, ← h, drop_drop, ← hlen]

theorem addTransferred_transferSize (p : Progress) (size : Nat) :
    (p.addTransferred size).transferSize = max p.transferSize (p.transferredSize + size) := by
  simp only [Progress.addTransferred]
  split <;> omega

variable {bytes : List UInt8}

/-- The bytes of an answer are those at the offset of its request. -/
theorem answer_data {offset size willing : Nat} {atEnd flag : Option Bool}
    (h : d.answer offset size willing atEnd = .data bytes flag) :
    bytes = (d.file.drop offset).take (min (max 1 willing) size) ∧ flag = atEnd := by
  unfold Job.answer at h
  split at h <;> cases h
  exact ⟨rfl, rfl⟩

theorem account_prevIncomplete {dataLen : Nat} (h : (Job.account s dataLen).2 = true) :
    (Job.account s dataLen).1 = 0 := by
  unfold Job.account at h ⊢
  grind

theorem Counted.congr {t : Sink} (h : Counted d s) (hw : t.written = s.written)
    (hg : t.gapFills = s.gapFills) (hp : t.progress = s.progress) : Counted d t := by
  refine ⟨⟨?_, ?_⟩, ?_, ?_⟩
  · rw [hw]; exact h.bytes
  · rw [hg]; exact h.gaps
  · rw [hw, hp]; exact h.counted
  · rw [hw, hp]; exact h.known

/-- An answer that begins with the next byte is written behind the others. -/
theorem Counted.store (h : Counted d s) {k : Nat}
    (hb : bytes = (d.file.drop (d.offset + s.written.length)).take k) (atEnd : Option Bool)
    (ha : (Job.account s bytes.length).2 = false →
      Linked (d.offset + (s.written ++ bytes).length + (Job.account s bytes.length).1)
        s.queue.requests s.queue.transferred) : Steady d (d.store s bytes atEnd) := by
  refine ⟨⟨⟨slice_append h.bytes hb, h.gaps⟩, ?_, ?_⟩, fun _ => ha, account_prevIncomplete⟩
  · simp only [Job.store, Progress.addTransferred, h.counted, length_append]
    omega
  · simp only [Job.store, addTransferred_transferSize, h.known, h.counted, length_append]
    omega

theorem answer_length {offset size willing : Nat} {atEnd flag : Option Bool}
    (h : d.answer offset size willing atEnd = .data bytes flag) : bytes.length ≤ size := by
  rw [(answer_data h).1, length_take]
  omega

theorem Counted.stop (h : Counted d s) (status : Status) (hs : status ≠ .running)
    (hc : s.prevIncomplete = true → s.missing = 0) : Steady d { s with status } :=
  ⟨h.congr rfl rfl rfl, fun hrun => absurd hrun hs, hc⟩

theorem Counted.process_data (h : Counted d s) {k : Nat} (hb : s.prevIncomplete = false →
      bytes = (d.file.drop (d.offset + s.written.length)).take k) (atEnd : Option Bool)
    (hc : s.prevIncomplete = true → s.missing = 0)
    (ha : s.prevIncomplete = false → (Job.account s bytes.length).2 = false →
      Linked (d.offset + (s.written ++ bytes).length + (Job.account s bytes.length).1)
        s.queue.requests s.queue.transferred) : Steady d (d.process s (.data bytes atEnd)) := by
  rw [Job.process]
  split
  · exact h.stop (.failed .incompleteBeforeEof) (by simp) hc
  · next hcond =>
    have hprev : s.prevIncomplete = false := by
      by_contra hp
      have hp : s.prevIncomplete = true := by simpa using hp
      exact hcond ⟨hc hp, hp⟩
    exact h.store (hb hprev) atEnd (ha hprev)

/-- A gap request of a download that was not resumed is for the next byte. -/
theorem Steady.fillGap (h : Steady d s) (hrun : s.status = .running) (hgap : s.missing > 0)
    (hzero : d.resumed = 0) : Steady d (d.fillGap s) := by
  have hprev : s.prevIncomplete = false := by
    by_contra hp
    have := h.complete (by simpa using hp)
    omega
  have hoffset : d.offset + s.progress.transferredSize = d.offset + s.written.length := by
    rw [h.counted, hzero, Nat.zero_add]
  have hc : Counted d { s with
      gapFills := s.gapFills ++ [⟨d.offset + s.written.length, s.missing, s.written.length⟩] } := by
    refine ⟨⟨h.bytes, fun g hg => ?_⟩, h.counted, h.known⟩
    rcases mem_append.mp hg with hg | hg
    · exact h.gaps g hg
    · cases mem_singleton.mp hg
      rfl
  simp only [Job.fillGap, hoffset]
  cases hans : d.answer (d.offset + s.written.length) s.missing (d.gapLen s.gapFills.length)
      (d.gapEof s.gapFills.length) with
  | eof => exact hc.stop .finished (by simp) h.complete
  | data bytes atEnd =>
    have hlen := answer_length hans
    refine hc.process_data (fun _ => (answer_data hans).1) atEnd h.complete fun _ _ => ?_
    simp only [Job.account, if_pos hgap, length_append]
    have hal := h.aligned hrun hprev
    rwa [show d.offset + (s.written.length + bytes.length) + (s.missing - bytes.length) =
      d.offset + s.written.length + s.missing by omega]

theorem Steady.next_offset (h : Steady d s) (hrun : s.status = .running) (hm : s.missing = 0)
    (hp : s.prevIncomplete = false) (hq : s.queue.requests = r :: rest) :
    r.offset = d.offset + s.written.length := by
  have hal := h.aligned hrun hp
  rw [hm, hq] at hal
  exact hal.1

/-- The answer to the first request in the queue begins with the next byte. -/
theorem Steady.takeBlock (h : Steady d s) (hrun : s.status = .running) (hm : s.missing = 0)
    (hq : s.queue.requests = r :: rest) : Steady d (d.takeBlock s r) := by
  have hc : ∀ queue blockSize received, Counted d { s with queue, blockSize, received } :=
    fun _ _ _ => h.toCounted.congr rfl rfl rfl
  cases hans : d.answer r.offset r.size (d.blockLen s.received) (d.blockEof s.received) with
  | eof =>
    simp only [Job.takeBlock, hans]
    exact (hc ..).stop .finished (by simp) h.complete
  | data bytes atEnd =>
    simp only [Job.takeBlock, hans]
    have hlen := answer_length hans
    refine (hc ..).process_data (k := min (max 1 (d.blockLen s.received)) r.size)
      (fun hp => ?_) atEnd h.complete fun hp ha => ?_
    · rw [← h.next_offset hrun hm hp hq]
      exact (answer_data hans).1
    · have hnext := (h.aligned hrun hp).advance (d := d) hq
      simp only [hm, Nat.add_zero] at hnext
      simp only [Job.account, hm, Nat.lt_irrefl, gt_iff_lt, if_false, length_append] at ha ⊢
      -- what is missing of a short answer is what it lacks of the block
      have hsum : d.offset + (s.written.length + bytes.length) + (r.size - bytes.length) =
          d.offset + s.written.length + r.size := by omega
      split at ha
      · next hshort =>
        split at ha
        · next hne =>
          rw [if_pos hshort, if_pos hne, hsum]
          exact hnext
        · cases ha
      · next hfull =>
        rw [if_neg hfull, Nat.add_zero, ← Nat.add_assoc, show bytes.length = r.size by omega]
        exact hnext

/-- A pass keeps the counters and the queue in step, unless it fills a gap after
something was resumed. -/
theorem Steady.pass (h : Steady d s) (hr : s.missing = 0 ∨ d.resumed = 0) : Steady d (d.pass s) := by
  cases hrun : s.status with
  | running =>
    simp only [Job.pass, hrun]
    split
    · next hgap => exact h.fillGap hrun hgap (hr.resolve_left (by omega))
    · next hgap =>
      cases hq : s.queue.requests with
      | nil => exact h.toCounted.stop (.failed .emptyQueue) (by simp) h.complete
      | cons r rest => exact h.takeBlock hrun (by omega) hq
  | finished => simpa only [Job.pass, hrun] using h
  | failed e => simpa only [Job.pass, hrun] using h

end NetBox.Sftp.Download
