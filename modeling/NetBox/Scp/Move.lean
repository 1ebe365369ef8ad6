import NetBox.Scp.Containment

/-! # Moving files from the server

`CopyToLocal` deletes a source after its download when asked to, if the call of
`SCPSink` has returned and no record was skipped. It does not ask whether there
was a record at all.
-/
namespace NetBox.Scp
open Base.Text List

/-- A source and how its download ends: the state, and whether the source is
deleted on the server. -/
def copyToLocal (k : CopyParam) (targetDir fullFileName : UnicodeString) (delete : Bool)
    (records : List Record) : Bool × SinkState :=
  match download k targetDir fullFileName records with
  | (.raised, s) => (false, s)
  | (.returned, s) =>
    -- the remote side has ended the transfer, which is how it should end
    let cancel := if s.cancel = .csRemoteAbort then .csContinue else s.cancel
    (delete && s.success && cancel == .csContinue, s)

/-- A record for the source has arrived, all files were stored in full, and no
record was skipped. -/
structure Received (log : List Event) : Prop where
  arrived : ∃ dir size own time accepted, .arrived 0 dir size own time accepted ∈ log
  stored : ∀ level size own time accepted, .arrived level false size own time accepted ∈ log →
    ∃ ascii, .stored own size time ascii ∈ log
  none_skipped : .skipped ∉ log

/-- The source is deleted only when it was received. -/
def SafeMove (k : CopyParam) (targetDir fullFileName : UnicodeString) (delete : Bool)
    (records : List Record) : Prop :=
  (copyToLocal k targetDir fullFileName delete records).1 = true →
    Received (copyToLocal k targetDir fullFileName delete records).2.log

def Record.isTime : Record → Bool
  | .time _ => true
  | _ => false

/-- The server ends the transfer before the record of a file or directory: with
the record for the end of a directory, or with the mark of the end of the command,
no failure reported, after nothing but time records. -/
def Premature (records : List Record) : Prop :=
  match records.dropWhile Record.isTime with
  | .exit :: _ => True
  | .lastLine code :: _ => code ≤ 1 ∧ records.head?.any Record.isTime = true
  | _ => False

/-! ## What a record does to the success of the transfer -/

/-- The new events are those of a record that was dealt with in full. -/
inductive Smooth (level : Nat) : List Event → Prop
  | none : Smooth level []
  | directory (size : Nat) (own path : UnicodeString) (time : Int) :
    Smooth level [.arrived level true size own time true, .enter path]
  | file (size : Nat) (own path : UnicodeString) (time : Int) (ascii : Bool) :
    Smooth level
      [.arrived level false size own time true, .openFile path, .stored own size time ascii]

/-- Either the transfer is no longer a success, or the record was dealt with. The
record of a file or directory leaves its events. -/
def Progress (level : Nat) (entry : Bool) (s t : SinkState) : Prop :=
  t.success = false ∨ t.success = s.success ∧
    ∃ new, t.log = s.log ++ new ∧ Smooth level new ∧ (entry = true → new ≠ [])

def Next.Sound (level : Nat) (entry : Bool) (s : SinkState) : Next → Prop
  | .loop _ t => Progress level entry s t
  | .descend _ _ t => Progress level entry s t
  | .leave .returned t => entry = false ∧ t.success = s.success ∧ t.log = s.log
  | .leave .raised _ => True

def Record.isEntry : Record → Bool
  | .entry _ _ _ _ => true
  | _ => false

variable {k : CopyParam} {f : Frame} {s t : SinkState} {level : Nat}

theorem Progress.refl : Progress level false s s :=
  .inr ⟨rfl, [], by simp, .none, fun h => nomatch h⟩

theorem skipFileNext_sound {entry : Bool} (h : Handling) :
    (skipFileNext f h t).Sound level entry s := by
  unfold skipFileNext
  split
  · exact .inl rfl
  · trivial

theorem receiveEntry_sound (k : CopyParam) (f : Frame) (dir : Bool) (size : Nat)
    (name : UnicodeString) (h : Handling) (s : SinkState) :
    (receiveEntry k f dir size name h s).Sound f.level true s := by
  unfold receiveEntry
  dsimp only
  split
  · exact .inl rfl
  · split
    · exact skipFileNext_sound h
    · split
      · exact .inl rfl
      · next haccepted =>
        rw [Bool.not_eq_true', Bool.not_eq_false] at haccepted
        rw [haccepted]
        split
        · trivial
        · next dest hdest =>
          split
          · next hdir =>
            unfold receiveDirectory
            cases h.directory with
            | isFile => exact .inl rfl
            | skipped => exact skipFileNext_sound h
            | broken => trivial
            | entered =>
              rw [hdir]
              refine .inr ⟨rfl, _, ?_, .directory size (f.sourceDir ++ unixExtractFileName name)
                (includeTrailingBackslash f.targetDir ++ dest) f.modification, fun _ => cons_ne_nil _ _⟩
              simp [SinkState.note]
          · next hdir =>
            rw [Bool.not_eq_true] at hdir
            unfold receiveFile
            cases h.file with
            | refused => exact .inl rfl
            | cancelled => exact .inl rfl
            | notOpened => exact .inl rfl
            | broken => trivial
            | notConfirmed => exact .inl rfl
            | fatalResponse => trivial
            | attributesSkipped => exact skipFileNext_sound h
            | stored =>
              rw [hdir]
              refine .inr ⟨rfl, _, ?_, .file size (f.sourceDir ++ unixExtractFileName name)
                (includeTrailingBackslash f.targetDir ++ dest) f.modification
                (k.ascii f.fileName size f.modification),
                fun _ => cons_ne_nil _ _⟩
              simp [SinkState.note]

theorem receiveRecord_sound (k : CopyParam) (f : Frame) (r : Record) (s : SinkState) :
    (receiveRecord k f r s).Sound f.level r.isEntry s := by
  cases r with
  | lastLine code =>
    unfold receiveRecord
    dsimp only
    split
    · trivial
    · exact ⟨rfl, rfl, rfl⟩
  | empty => trivial
  | fatalError => trivial
  | invalid => trivial
  | exit => exact ⟨rfl, rfl, rfl⟩
  | time modification => exact .refl
  | error h => exact .inl rfl
  | illegalTime h => exact .inl rfl
  | illegalEntry h => exact .inl rfl
  | entry dir size name h => exact receiveEntry_sound k _ dir size name h s

/-- All files in the log were stored and nothing was skipped. -/
structure Complete (log : List Event) : Prop where
  stored : ∀ level size own time accepted, .arrived level false size own time accepted ∈ log →
    ∃ ascii, .stored own size time ascii ∈ log
  none_skipped : .skipped ∉ log

theorem Complete.append {log new : List Event} (h : Complete log) (hnew : Complete new) :
    Complete (log ++ new) := by
  constructor
  · intro level size own time accepted hmem
    rcases mem_append.mp hmem with hmem | hmem
    · obtain ⟨ascii, hstored⟩ := h.stored level size own time accepted hmem
      exact ⟨ascii, mem_append_left _ hstored⟩
    · obtain ⟨ascii, hstored⟩ := hnew.stored level size own time accepted hmem
      exact ⟨ascii, mem_append_right _ hstored⟩
  · intro hmem
    rcases mem_append.mp hmem with hmem | hmem
    · exact h.none_skipped hmem
    · exact hnew.none_skipped hmem

theorem Smooth.complete {new : List Event} (h : Smooth level new) : Complete new := by
  cases h with
  | none => exact ⟨fun _ _ _ _ _ hmem => (not_mem_nil hmem).elim, not_mem_nil⟩
  | directory size own path time => exact ⟨by simp, by simp⟩
  | file size own path time ascii =>
    refine ⟨?_, by simp⟩
    intro level' size' own' time' accepted hmem
    simp only [mem_cons, Event.arrived.injEq, reduceCtorEq, not_mem_nil, or_false] at hmem
    obtain ⟨-, -, rfl, rfl, rfl, -⟩ := hmem
    exact ⟨ascii, by simp⟩

/-- A successful end leaves a complete log that contains the one before. -/
def Lossless (s t : SinkState) : Prop :=
  t.success = true → s.success = true ∧ ∃ new, t.log = s.log ++ new ∧ Complete new

theorem Lossless.refl : Lossless s s := by
  intro h
  exact ⟨h, [], by simp, (Smooth.none : Smooth 0 []).complete⟩

theorem Lossless.trans {u : SinkState} (h : Lossless s t) (h' : Lossless t u) : Lossless s u := by
  intro hu
  obtain ⟨ht, new', hlog', hnew'⟩ := h' hu
  obtain ⟨hs, new, hlog, hnew⟩ := h ht
  exact ⟨hs, new ++ new', by rw [hlog', hlog, append_assoc], hnew.append hnew'⟩

theorem Progress.lossless {entry : Bool} (h : Progress level entry s t) : Lossless s t := by
  intro ht
  rcases h with hfail | ⟨hsame, new, hlog, hnew, -⟩
  · rw [hfail] at ht
    cases ht
  · exact ⟨hsame ▸ ht, new, hlog, hnew.complete⟩

/-- A call that returns has lost nothing, unless it says so. -/
theorem sink_lossless (k : CopyParam) (fuel : Nat) (f : Frame) (s : SinkState) :
    (sink k fuel f s).1 = .returned → Lossless s (sink k fuel f s).2 := by
  have hstep : ∀ (f : Frame) (s : SinkState) (r : Record) (records : List Record),
      (receiveRecord k f r { s with records }).Sound f.level r.isEntry { s with records } :=
    fun f s r records => receiveRecord_sound k f r _
  refine sink_rule k (P := fun _ s o => o.1 = .returned → Lossless s o.2) ?_ ?_ ?_ ?_ ?_ fuel f s
  · exact fun _ s _ _ => .refl
  · intro f s r records flow t hs hnext hflow
    have hsound := hstep f s r records
    cases hflow
    rw [hnext] at hsound
    obtain ⟨-, hsuccess, hlog⟩ := hsound
    intro ht
    exact ⟨hsuccess ▸ ht, [], by rw [hlog]; simp, (Smooth.none : Smooth 0 []).complete⟩
  · intro f s r records g t o hs hnext ih hflow
    have hsound := hstep f s r records
    rw [hnext] at hsound
    exact Lossless.trans (Progress.lossless hsound : Lossless s t) (ih hflow)
  · intro f s r records g inner t u o hs hnext ihinner ih hflow
    have hsound := hstep f s r records
    rw [hnext] at hsound
    exact Lossless.trans (Progress.lossless hsound : Lossless s t) ((ihinner rfl).trans (ih hflow))
  · intro f s r records g inner t u hs hnext ihinner hflow
    cases hflow

/-! ## Whether there was a record -/

/-- Time records only set the time. -/
theorem sink_times (k : CopyParam) {times : List Record} (htimes : ∀ r ∈ times, r.isTime = true)
    (fuel : Nat) (f : Frame) (records : List Record) (success : Bool) (log : List Event) :
    ∃ m, sink k (times.length + fuel) f ⟨times ++ records, .csContinue, success, log⟩ =
      sink k fuel { f with initialized := f.initialized || !times.isEmpty, modification := m }
        ⟨records, .csContinue, success, log⟩ := by
  induction times generalizing f with
  | nil => exact ⟨f.modification, by simp⟩
  | cons r times ih =>
    cases r with
    | time modification =>
      obtain ⟨m, hm⟩ := ih (fun r hr => htimes r (mem_cons_of_mem _ hr))
        { f with initialized := true, modification }
      refine ⟨m, ?_⟩
      rw [length_cons, Nat.add_right_comm, sink]
      simpa [receiveRecord] using hm
    | _ => cases htimes _ mem_cons_self

def Next.state : Next → SinkState
  | .loop _ t | .descend _ _ t | .leave _ t => t

variable {records : List Record}

/-- A successful call that starts with a record either ends with it or was still
successful after it. -/
theorem sink_first {fuel : Nat} {r : Record} {u : SinkState} (hs : s.records = r :: records)
    (hcancel : s.cancel = .csContinue) (hrun : sink k (fuel + 1) f s = (.returned, u))
    (hu : u.success = true) :
    receiveRecord k f r { s with records } = .leave .returned u ∨
      Progress f.level r.isEntry { s with records } (receiveRecord k f r { s with records }).state ∧
        (receiveRecord k f r { s with records }).state.success = true ∧
        ∃ later, u.log = (receiveRecord k f r { s with records }).state.log ++ later := by
  have hsound := receiveRecord_sound k f r { s with records }
  rw [sink, if_neg (by simp [hcancel])] at hrun
  simp only [hs] at hrun
  cases hnext : receiveRecord k f r { s with records } with
  | leave flow t =>
    rw [hnext] at hrun
    cases hrun
    exact .inl rfl
  | loop g t =>
    rw [hnext] at hrun hsound
    dsimp only at hrun
    have hrest := sink_lossless k fuel g t (by rw [hrun])
    rw [hrun] at hrest
    obtain ⟨ht, later, hlog, -⟩ := hrest hu
    exact .inr ⟨hsound, ht, later, hlog⟩
  | descend g inner t =>
    rw [hnext] at hrun hsound
    dsimp only at hrun
    have hinner := sink_lossless k fuel inner t
    generalize sink k fuel inner t = o at hrun hinner
    obtain ⟨flow, v⟩ := o
    cases flow with
    | raised => cases hrun
    | returned =>
      dsimp only at hrun
      have hrest := sink_lossless k fuel g v (by rw [hrun])
      rw [hrun] at hrest
      obtain ⟨ht, later, hlog, -⟩ := ((hinner rfl).trans hrest) hu
      exact .inr ⟨hsound, ht, later, hlog⟩

theorem Smooth.arrived {new : List Event} (h : Smooth level new) (hne : new ≠ []) :
    ∃ dir size own time accepted, .arrived level dir size own time accepted ∈ new := by
  cases h with
  | none => exact absurd rfl hne
  | directory size own path time => exact ⟨true, size, own, time, true, mem_cons_self⟩
  | file size own path time ascii => exact ⟨false, size, own, time, true, mem_cons_self⟩

/-- The download behind its time records. -/
theorem download_eq (k : CopyParam) (targetDir fullFileName : UnicodeString)
    (records : List Record) :
    ∃ f, f.level = 0 ∧ f.initialized = records.head?.any Record.isTime ∧
      download k targetDir fullFileName records =
        sink k ((records.dropWhile Record.isTime).length + 1) f
          (startState (records.dropWhile Record.isTime)) := by
  have hsplit : records.takeWhile Record.isTime ++ records.dropWhile Record.isTime = records :=
    takeWhile_append_dropWhile
  have htimes : ∀ r ∈ records.takeWhile Record.isTime, r.isTime = true :=
    all_eq_true.mp all_takeWhile
  obtain ⟨m, hm⟩ := sink_times k htimes ((records.dropWhile Record.isTime).length + 1)
    (topFrame targetDir fullFileName) (records.dropWhile Record.isTime) true []
  refine ⟨{ topFrame targetDir fullFileName with
    initialized := false || !(records.takeWhile Record.isTime).isEmpty, modification := m },
    rfl, ?_, ?_⟩
  rotate_left
  · refine Eq.trans ?_ hm
    rw [hsplit, ← Nat.add_assoc, ← length_append, hsplit]
    rfl
  · cases records with
    | nil => rfl
    | cons r records =>
      change (false || !((r :: records).takeWhile Record.isTime).isEmpty) = r.isTime
      rw [takeWhile_cons]
      cases r.isTime <;> rfl

/-- A download that succeeds and does not end prematurely has received a record of
the source. -/
theorem download_arrived {targetDir fullFileName : UnicodeString} {u : SinkState}
    (hrun : download k targetDir fullFileName records = (.returned, u)) (hu : u.success = true)
    (hpremature : ¬Premature records) :
    ∃ dir size own time accepted, .arrived 0 dir size own time accepted ∈ u.log := by
  obtain ⟨f, hlevel, hinit, heq⟩ := download_eq k targetDir fullFileName records
  rw [heq] at hrun
  unfold Premature at hpremature
  generalize hrest : records.dropWhile Record.isTime = rest at hrun hpremature
  cases rest with
  | nil => cases hrun
  | cons r rest =>
    have hfirst := sink_first rfl rfl hrun hu
    cases r with
    | time m =>
      have hhead := head?_dropWhile_not Record.isTime records
      rw [hrest] at hhead
      cases hhead
    | empty => cases hrun
    | fatalError => cases hrun
    | invalid => cases hrun
    | exit => exact absurd trivial hpremature
    | error h => rcases hfirst with hleave | ⟨-, hsuccess, -⟩ <;> contradiction
    | illegalTime h => rcases hfirst with hleave | ⟨-, hsuccess, -⟩ <;> contradiction
    | illegalEntry h => rcases hfirst with hleave | ⟨-, hsuccess, -⟩ <;> contradiction
    | lastLine code =>
      have hflow : (if code > 1 ∨ f.initialized = false then Flow.raised else .returned) =
          .returned := congrArg Prod.fst hrun
      by_cases hend : code > 1 ∨ f.initialized = false
      · rw [if_pos hend] at hflow
        cases hflow
      · rw [not_or, Bool.not_eq_false, hinit] at hend
        exact absurd ⟨Int.not_lt.mp hend.1, hend.2⟩ hpremature
    | entry dir size name h =>
      rcases hfirst with hleave | ⟨hprogress, hsuccess, later, hlater⟩
      · have hsound := receiveRecord_sound k f (.entry dir size name h) (startState rest)
        change receiveRecord k f (.entry dir size name h) (startState rest) = _ at hleave
        rw [hleave] at hsound
        cases hsound.1
      · rcases hprogress with hfail | ⟨-, new, hlog, hnew, hne⟩
        · rw [hfail] at hsuccess
          cases hsuccess
        · obtain ⟨dir, size, own, time, accepted, hmem⟩ := hnew.arrived (hne rfl)
          rw [hlevel] at hmem
          refine ⟨dir, size, own, time, accepted, ?_⟩
          rw [hlater, hlog]
          exact mem_append_left _ (mem_append_right _ hmem)

/-- A premature end counts as a success. -/
theorem download_premature (k : CopyParam) (targetDir fullFileName : UnicodeString)
    (h : Premature records) : ∃ u, download k targetDir fullFileName records = (.returned, u) ∧
      u.success = true ∧ u.log = [] ∧ (u.cancel = .csContinue ∨ u.cancel = .csRemoteAbort) := by
  obtain ⟨f, -, hinit, heq⟩ := download_eq k targetDir fullFileName records
  rw [heq]
  unfold Premature at h
  split at h
  · next rest hrest =>
    rw [hrest]
    exact ⟨startState rest, rfl, rfl, rfl, .inl rfl⟩
  · next code rest hrest =>
    rw [← hinit] at h
    rw [hrest]
    refine ⟨{ startState rest with cancel := .csRemoteAbort }, ?_, rfl, rfl, .inr rfl⟩
    rw [length_cons, sink]
    have hflow : ¬(code > 1 ∨ f.initialized = false) := by
      rw [not_or, Bool.not_eq_false]
      exact ⟨Int.not_lt.mpr h.1, h.2⟩
    simp [startState, receiveRecord, hflow]
  · exact h.elim

/-- A move keeps what was not received, except when the server ends the
transfer before the first record of a file or directory. -/
theorem move_safe_iff (k : CopyParam) (targetDir fullFileName : UnicodeString) (delete : Bool)
    (records : List Record) :
    SafeMove k targetDir fullFileName delete records ↔
      ¬(delete = true ∧ Premature records) := by
  unfold SafeMove copyToLocal
  constructor
  · intro h ⟨hdelete, hpremature⟩
    obtain ⟨u, hrun, hsuccess, hlog, hcancel⟩ :=
      download_premature k targetDir fullFileName hpremature
    rw [hrun] at h
    have hdeleted : (delete && u.success &&
        (if u.cancel = .csRemoteAbort then CancelStatus.csContinue else u.cancel) == .csContinue) =
        true := by
      rw [hdelete, hsuccess]
      rcases hcancel with hcancel | hcancel <;> rw [hcancel] <;> rfl
    obtain ⟨dir, size, own, time, accepted, hmem⟩ := (h hdeleted).arrived
    change _ ∈ u.log at hmem
    rw [hlog] at hmem
    exact List.not_mem_nil hmem
  · intro h hdeleted
    have hlossless := sink_lossless k (records.length + 1) (topFrame targetDir fullFileName)
      (startState records)
    cases hrun : download k targetDir fullFileName records with
    | mk flow u =>
      rw [hrun] at hdeleted
      cases flow with
      | raised => cases hdeleted
      | returned =>
        simp only [Bool.and_eq_true] at hdeleted
        obtain ⟨⟨hdelete, hsuccess⟩, -⟩ := hdeleted
        have harrived := download_arrived hrun hsuccess fun hpremature => h ⟨hdelete, hpremature⟩
        rw [download] at hrun
        rw [hrun] at hlossless
        obtain ⟨-, new, hlog, hnew⟩ := hlossless rfl hsuccess
        have hlog : u.log = new := hlog
        refine ⟨harrived, ?_, ?_⟩
        · change ∀ level size own time accepted, _ ∈ u.log → ∃ ascii, _ ∈ u.log
          rw [hlog]
          exact hnew.stored
        · change _ ∉ u.log
          rw [hlog]
          exact hnew.none_skipped

/-- A server that answers the request for a file with nothing but the end of a
directory gets the file deleted. -/
theorem move_unreceived :
    ¬SafeMove defaultParam (wstr "C:\\t") (wstr "/r/f") true [.exit, .lastLine 0] := by
  intro h
  have hdeleted : (copyToLocal defaultParam (wstr "C:\\t") (wstr "/r/f") true
      [.exit, .lastLine 0]).1 = true := by
    decide +kernel
  have hlog : (copyToLocal defaultParam (wstr "C:\\t") (wstr "/r/f") true
      [.exit, .lastLine 0]).2.log = [] := by
    decide +kernel
  obtain ⟨dir, size, own, time, accepted, hmem⟩ := (h hdeleted).arrived
  rw [hlog] at hmem
  exact List.not_mem_nil hmem

end NetBox.Scp
