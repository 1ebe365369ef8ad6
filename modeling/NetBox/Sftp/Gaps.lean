import NetBox.Sftp.Download

/-! # Gaps of a download

A block that the server answers short leaves a gap, and the next pass requests
what is missing at `Offset + TransferredSize`. `Offset` has the resumed bytes
already, so that a resumed download with a gap goes on at the wrong place. The
downloads that do so are found from the answers of the server alone. All others
write the remote file. -/
namespace NetBox.Sftp.Download

variable {d : Job} {s : Sink} {r : ReadRequest} {rest : List ReadRequest}

/-! ## From the start -/

theorem progress_eq (d : Job) :
    d.progress = ⟨d.resumed, max d.transferSize d.resumed⟩ := by
  simp only [Job.progress, Progress.addTransferred, Nat.zero_add, Progress.mk.injEq, true_and]
  split <;> omega

theorem start_steady (d : Job) : Steady d d.start := by
  refine ⟨⟨⟨?_, ?_⟩, ?_, ?_⟩, fun _ _ => ?_, ?_⟩
  · simp [Job.start]
  · simp [Job.start]
  · simp [Job.start, progress_eq]
  · simp [Job.start, progress_eq]
  · exact Linked.sendRequests rfl
  · simp [Job.start]

theorem sink_succ (d : Job) (n : Nat) : d.sink (n + 1) = d.pass (d.sink n) :=
  Function.iterate_succ_apply' ..

theorem sink_steady_of_not_resumed (h : d.resumed = 0) (n : Nat) : Steady d (d.sink n) := by
  induction n with
  | zero => exact start_steady d
  | succ n ih =>
    rw [sink_succ]
    exact ih.pass (.inr h)

/-! ## When a gap arises -/

/-- The queue after so many answers with data. -/
def Job.queueAfter (d : Job) : Nat → Queue
  | 0 => d.initQueue
  | i + 1 => d.advance (d.queueAfter i)

/-- How many bytes the server sends for the request of the i-th block. -/
def Job.blockLength (d : Job) (i : Nat) (r : ReadRequest) : Nat :=
  min (min (max 1 (d.blockLen i)) r.size) (d.file.length - r.offset)

/-- The bytes that count as transferred before a block. -/
def Job.countedBefore (d : Job) (r : ReadRequest) : Nat :=
  d.resumed + (r.offset - d.offset)

/-- The i-th block is answered in full and the download goes on. -/
def Job.Whole (d : Job) (i : Nat) : Prop :=
  ∃ r rest, (d.queueAfter i).requests = r :: rest ∧ r.offset < d.file.length ∧
    d.blockLength i r = r.size ∧ ¬ d.Ends 0 (d.blockEof i) (d.countedBefore r + r.size)

/-- The i-th block is the first one that is answered short. It is not the end of
the file as listed, and the part is not complete with it. -/
def Job.GapAt (d : Job) (i : Nat) : Prop :=
  (∀ j < i, d.Whole j) ∧ ∃ r rest, (d.queueAfter i).requests = r :: rest ∧
    r.offset < d.file.length ∧ d.blockLength i r < r.size ∧
    d.countedBefore r + d.blockLength i r ≠
      max (max d.transferSize d.resumed) (d.countedBefore r) ∧
    ¬ (d.partSize ≥ 0 ∧ d.countedBefore r + d.blockLength i r ≥ d.partSize)

/-- So far every block was answered in full. -/
structure OnTrack (d : Job) (i : Nat) (s : Sink) : Prop extends Steady d s where
  running : s.status = .running
  noGap : s.missing = 0
  sound : s.prevIncomplete = false
  received : s.received = i
  queue : s.queue = d.queueAfter i

variable {i : Nat}

theorem OnTrack.offset (h : OnTrack d i s) (hq : (d.queueAfter i).requests = r :: rest) :
    r.offset = d.offset + s.written.length :=
  h.next_offset h.running h.noGap h.sound (h.queue ▸ hq)

theorem OnTrack.countedBefore (h : OnTrack d i s) (hq : (d.queueAfter i).requests = r :: rest) :
    d.countedBefore r = s.progress.transferredSize := by
  rw [Job.countedBefore, h.offset hq, h.counted]
  omega

/-- The loop when the i-th block is answered with data. -/
def Job.taking (d : Job) (i : Nat) (r : ReadRequest) (s : Sink) : Sink :=
  { s with queue := d.queueAfter (i + 1), blockSize := r.size, received := i + 1 }

theorem OnTrack.pass_data (h : OnTrack d i s) (hq : (d.queueAfter i).requests = r :: rest)
    (hlt : r.offset < d.file.length) :
    ∃ bytes, bytes.length = d.blockLength i r ∧
      d.pass s = d.store (d.taking i r s) bytes (d.blockEof i) := by
  refine ⟨(d.file.drop r.offset).take (min (max 1 (d.blockLen i)) r.size), ?_, ?_⟩
  · simp [Job.blockLength]
  · have hans : d.answer r.offset r.size (d.blockLen i) (d.blockEof i) =
        .data ((d.file.drop r.offset).take (min (max 1 (d.blockLen i)) r.size)) (d.blockEof i) :=
      if_neg (by omega)
    simp only [Job.pass, h.running, h.noGap, Nat.lt_irrefl, gt_iff_lt, if_false, Job.takeBlock,
      h.received, Job.process, h.sound, h.queue, hq, hans]
    simp [Job.queueAfter, Job.taking, h.running, h.noGap, h.sound]

/-- What is missing after the i-th block. -/
theorem OnTrack.account (h : OnTrack d i s) (r : ReadRequest) (size : Nat) :
    Job.account (d.taking i r s) size =
      if size < r.size then
        if s.progress.transferredSize + size ≠ s.progress.transferSize then (r.size - size, false)
        else (0, true)
      else (0, false) := by
  simp only [Job.account, Job.taking, h.noGap, Nat.lt_irrefl, gt_iff_lt, if_false]

theorem OnTrack.whole (h : OnTrack d i s) (hw : d.Whole i) : OnTrack d (i + 1) (d.pass s) := by
  obtain ⟨r, rest, hq, hlt, hlen, hends⟩ := hw
  obtain ⟨bytes, hbytes, hpass⟩ := h.pass_data hq hlt
  have hsteady := h.pass (.inl h.noGap)
  rw [hpass] at hsteady ⊢
  have hacc : Job.account (d.taking i r s) bytes.length = (0, false) := by
    rw [h.account, if_neg (by omega)]
  rw [h.countedBefore hq, ← hlen, ← hbytes] at hends
  refine ⟨hsteady, ?_, ?_, ?_, rfl, rfl⟩
  · simp only [Job.store, hacc, Progress.addTransferred]
    exact if_neg hends
  · simp only [Job.store, hacc]
  · simp only [Job.store, hacc]

theorem start_onTrack (d : Job) : OnTrack d 0 d.start :=
  ⟨start_steady d, rfl, rfl, rfl, rfl, rfl⟩

theorem sink_onTrack (h : ∀ j < i, d.Whole j) : OnTrack d i (d.sink i) := by
  induction i with
  | zero => exact start_onTrack d
  | succ i ih =>
    rw [sink_succ]
    exact (ih fun j hj => h j (by omega)).whole (h i (by omega))

/-- The loop goes on from a short block with a gap. -/
theorem OnTrack.gap (h : OnTrack d i s) (hq : (d.queueAfter i).requests = r :: rest)
    (hlt : r.offset < d.file.length) (hshort : d.blockLength i r < r.size)
    (hend : d.countedBefore r + d.blockLength i r ≠
      max (max d.transferSize d.resumed) (d.countedBefore r))
    (hpart : ¬ (d.partSize ≥ 0 ∧ d.countedBefore r + d.blockLength i r ≥ d.partSize)) :
    (d.pass s).status = .running ∧ (d.pass s).missing > 0 := by
  obtain ⟨bytes, hbytes, hpass⟩ := h.pass_data hq hlt
  rw [h.countedBefore hq, ← hbytes] at hend hpart
  rw [h.counted, ← h.known] at hend
  rw [hpass]
  have hacc : Job.account (d.taking i r s) bytes.length = (r.size - bytes.length, false) := by
    rw [← h.counted] at hend
    rw [h.account, if_pos (by omega), if_pos hend]
  refine ⟨?_, ?_⟩
  · simp only [Job.store, hacc, Progress.addTransferred]
    refine if_neg ?_
    intro hends
    obtain ⟨-, hmissing, -⟩ | hends := hends
    · omega
    · exact hpart hends
  · simp only [Job.store, hacc]
    omega

theorem process_gapFills (d : Job) (s : Sink) (response : Response) :
    (d.process s response).gapFills = s.gapFills := by
  cases response with
  | eof => rfl
  | data bytes atEnd =>
    rw [Job.process]
    split <;> rfl

/-- The request that fills a gap is too far by the bytes that were resumed. -/
theorem Steady.gap_offset (h : Steady d s) (hrun : s.status = .running) (hm : s.missing > 0)
    (hf : Faithful d (d.pass s)) : d.resumed = 0 := by
  have hpass : d.pass s = d.fillGap s := by
    simp only [Job.pass, hrun, hm, if_true]
  have hmem : ⟨d.offset + s.progress.transferredSize, s.missing, s.written.length⟩ ∈
      (d.pass s).gapFills := by
    rw [hpass, Job.fillGap, process_gapFills]
    exact List.mem_append_right _ List.mem_cons_self
  have hoff := hf.gaps _ hmem
  simp only [h.counted] at hoff
  omega

/-! ## Downloads without a gap -/

/-- Nothing is missing while the loop runs, and until the end of the file shows
every block was answered in full. -/
structure Smooth (d : Job) (s : Sink) : Prop extends Steady d s where
  noGap : s.status = .running → s.missing = 0
  track : s.status = .running → s.prevIncomplete = false →
    OnTrack d s.received s ∧ ∀ j < s.received, d.Whole j

theorem Smooth.stopped (h : Steady d s) (hs : s.status ≠ .running) : Smooth d s :=
  ⟨h, fun hrun => absurd hrun hs, fun hrun => absurd hrun hs⟩

/-- Behind an incomplete block the loop ends, whatever comes. -/
theorem pass_stops (h : s.prevIncomplete = true) (hm : s.missing = 0) :
    (d.pass s).status ≠ .running := by
  rw [Job.pass]
  split
  · rw [if_neg (by omega)]
    split
    · simp
    · simp only [Job.takeBlock]
      split <;> simp [Job.process, h, hm]
  · assumption

/-- What becomes of a block that is not a gap: it is whole, or it ends the
download now or with the next answer. -/
theorem OnTrack.smooth_block (h : OnTrack d s.received s) (hw : ∀ j < s.received, d.Whole j)
    (hgap : ¬ d.GapAt s.received) (hq : (d.queueAfter s.received).requests = r :: rest)
    (hlt : r.offset < d.file.length) : Smooth d (d.pass s) := by
  have hsteady := h.pass (.inl h.noGap)
  by_cases hrun : (d.pass s).status = .running
  swap
  · exact Smooth.stopped hsteady hrun
  obtain ⟨bytes, hbytes, hpass⟩ := h.pass_data hq hlt
  have hle : d.blockLength s.received r ≤ r.size := by
    rw [Job.blockLength]
    omega
  have hnotEnds : ¬ d.Ends (Job.account (d.taking s.received r s) (d.blockLength s.received r)).1
      (d.blockEof s.received) (d.countedBefore r + d.blockLength s.received r) := by
    rw [h.countedBefore hq, ← hbytes]
    intro hends
    have hfinished : (d.pass s).status = .finished := hpass ▸ if_pos hends
    rw [hrun] at hfinished
    cases hfinished
  rcases Nat.eq_or_lt_of_le hle with hwhole | hshort
  · have hacc : Job.account (d.taking s.received r s) (d.blockLength s.received r) = (0, false) := by
      rw [h.account, if_neg (by omega)]
    have hw' : d.Whole s.received := by
      refine ⟨r, rest, hq, hlt, hwhole, ?_⟩
      rw [hacc, hwhole] at hnotEnds
      exact hnotEnds
    have htrack := h.whole hw'
    have hreceived := htrack.received
    refine ⟨hsteady, fun _ => htrack.noGap, fun _ _ => ⟨hreceived ▸ htrack, ?_⟩⟩
    intro j hj
    rcases Nat.lt_succ_iff_lt_or_eq.mp (hreceived ▸ hj) with hj | rfl
    · exact hw j hj
    · exact hw'
  · by_cases hend : s.progress.transferredSize + d.blockLength s.received r = s.progress.transferSize
    · have hacc : Job.account (d.taking s.received r s) bytes.length = (0, true) := by
        rw [h.account, if_pos (by omega), if_neg (by simp [hbytes, hend])]
      rw [hpass] at hsteady ⊢
      refine ⟨hsteady, fun _ => ?_, fun _ hp => ?_⟩
      · simp only [Job.store, hacc]
      · simp [Job.store, hacc] at hp
    · refine absurd ⟨hw, r, rest, hq, hlt, hshort, ?_, ?_⟩ hgap
      · rw [h.countedBefore hq, h.counted, ← h.known, ← h.counted]
        exact hend
      · exact fun hpart => hnotEnds (.inr (mod_cast hpart))

theorem OnTrack.smooth_pass (h : OnTrack d s.received s) (hw : ∀ j < s.received, d.Whole j)
    (hgap : ¬ d.GapAt s.received) : Smooth d (d.pass s) := by
  have hsteady := h.pass (.inl h.noGap)
  rcases hq : (d.queueAfter s.received).requests with _ | ⟨r, rest⟩
  · refine Smooth.stopped hsteady ?_
    simp [Job.pass, h.running, h.noGap, h.queue, hq]
  by_cases hlt : r.offset < d.file.length
  · exact h.smooth_block hw hgap hq hlt
  · refine Smooth.stopped hsteady ?_
    have hans : d.answer r.offset r.size (d.blockLen s.received) (d.blockEof s.received) = .eof :=
      if_pos (by omega)
    have hq' : s.queue.requests = r :: rest := h.queue ▸ hq
    simp [Job.pass, h.running, h.noGap, hq', Job.takeBlock, hans, Job.process]

theorem Smooth.pass (h : Smooth d s) (hgap : ∀ i, ¬ d.GapAt i) : Smooth d (d.pass s) := by
  by_cases hrun : s.status = .running
  · have hm := h.noGap hrun
    cases hp : s.prevIncomplete
    · obtain ⟨htrack, hw⟩ := h.track hrun hp
      exact htrack.smooth_pass hw (hgap _)
    · exact Smooth.stopped (h.toSteady.pass (.inl hm)) (pass_stops hp hm)
  · have hpass : d.pass s = s := by
      rw [Job.pass]
      split
      · contradiction
      · rfl
    rw [hpass]
    exact h

theorem sink_smooth (h : ∀ i, ¬ d.GapAt i) (n : Nat) : Smooth d (d.sink n) := by
  induction n with
  | zero =>
    have htrack := start_onTrack d
    exact ⟨htrack.toSteady, fun _ => rfl, fun _ _ => ⟨htrack, fun j hj => absurd hj j.not_lt_zero⟩⟩
  | succ n ih =>
    rw [sink_succ]
    exact ih.pass h

theorem sink_steady (h : d.resumed = 0 ∨ ∀ i, ¬ d.GapAt i) (n : Nat) :
    Steady d (d.sink n) ∧ ((d.sink n).status = .running → (d.sink n).missing = 0 ∨ d.resumed = 0) := by
  rcases h with hr | hgap
  · exact ⟨sink_steady_of_not_resumed hr n, fun _ => .inr hr⟩
  · have hs := sink_smooth hgap n
    exact ⟨hs.toSteady, fun hrun => .inl (hs.noGap hrun)⟩

/-- A download is faithful exactly when it does not begin with resumed bytes
or no gap ever arises. The offset of the request that fills a gap adds the
resumed bytes to an offset that has them already. -/
theorem download_faithful_iff (d : Job) :
    (∀ passes, Faithful d (d.sink passes)) ↔ d.resumed = 0 ∨ ∀ i, ¬ d.GapAt i := by
  constructor
  · intro h
    by_contra hcon
    push Not at hcon
    obtain ⟨hr, i, hw, r, rest, hq, hlt, hshort, hend, hpart⟩ := hcon
    have htrack := sink_onTrack hw
    obtain ⟨hrun, hm⟩ := htrack.gap hq hlt hshort hend (by simpa using hpart)
    have hsteady := htrack.toSteady.pass (.inl htrack.noGap)
    rw [← sink_succ] at hrun hm hsteady
    exact hr (hsteady.gap_offset hrun hm (sink_succ d (i + 1) ▸ h (i + 2)))
  · intro h passes
    exact (sink_steady h passes).1.toFaithful

/-- A download of ten bytes from the third one on in blocks of four. The first
block is answered with two bytes, and the bytes that fill the gap are those two
places further. -/
def resumedJob : Job where
  file := [0, 1, 2, 3, 4, 5, 6, 7, 8, 9]
  resumed := 2
  partOffset := -1
  partSize := -1
  transferSize := 10
  queueLen := 1
  blockSize := fun _ => 4
  version := 3
  blockLen := fun i => if i = 0 then 2 else 4
  blockEof := fun _ => none
  gapLen := fun _ => 4
  gapEof := fun _ => none

theorem resumedJob_unfaithful :
    (resumedJob.sink 2).written = [2, 3, 6, 7] ∧
      (resumedJob.sink 2).gapFills.map (fun g => (g.offset, g.position)) = [(6, 2)] ∧
      (resumedJob.file.drop resumedJob.offset).take 4 = [2, 3, 4, 5] ∧
      ¬ Faithful resumedJob (resumedJob.sink 2) := by
  have hwritten : (resumedJob.sink 2).written = [2, 3, 6, 7] := by decide
  have hremote : (resumedJob.file.drop resumedJob.offset).take 4 = [2, 3, 4, 5] := by decide
  refine ⟨hwritten, by decide, hremote, ?_⟩
  intro h
  have hbytes := h.bytes
  rw [hwritten, List.length_cons, List.length_cons, List.length_cons, List.length_cons,
    List.length_nil, hremote] at hbytes
  exact absurd hbytes (by decide)

end NetBox.Sftp.Download
