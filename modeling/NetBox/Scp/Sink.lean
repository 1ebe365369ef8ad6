import NetBox.Scp.LocalName

/-! # The download loop of SCP

`SCPSink` reads the control records of the server one after the other. A record
of a directory leads to a call for the records inside, which ends with the record
for the end of the directory or when the whole transfer ends.

What the server sends is a list of records. With the record of a file or directory
comes how the local side gets on with it, should it come to that: what the user
answers, what the file system does, and what arrives of the data.
-/
namespace NetBox.Scp
open Base.Text List

inductive CancelStatus
  | csContinue | csCancel | csCancelTransfer | csRemoteAbort
deriving DecidableEq

/-- How the transfer of a file goes on once it is not excluded. -/
inductive FileOutcome
  /-- All bytes arrive and the server confirms the file. -/
  | stored
  /-- The user does not want the file to be overwritten or created. -/
  | refused
  /-- The user cancels when asked about overwriting. -/
  | cancelled
  /-- The local file cannot be opened. -/
  | notOpened
  /-- The data does not arrive in full, cannot be written or is cancelled. -/
  | broken
  /-- The server answers the data with an error. -/
  | notConfirmed
  /-- The server answers the data with a fatal error. -/
  | fatalResponse
  /-- The attributes cannot be set and the user skips the file. -/
  | attributesSkipped
deriving DecidableEq

/-- How it goes on with a directory that is not excluded. -/
inductive DirOutcome
  | entered
  /-- There is a file of that name. -/
  | isFile
  /-- It cannot be created and the user skips it. -/
  | skipped
  | broken
deriving DecidableEq

/-- The part of the local side in handling one record. -/
structure Handling where
  /-- The user has cancelled before the transfer starts. -/
  cancel : Option CancelStatus
  file : FileOutcome
  directory : DirOutcome
  /-- The user aborts when told of a skipped file. -/
  abort : Bool
  /-- A skip is shown to the user without raising it again. -/
  handled : Bool
deriving DecidableEq

/-- A line the server sends while the client waits for a control record. -/
inductive Record
  /-- The mark of the end of the command, with the return code. -/
  | lastLine (code : Int)
  | empty
  | error (h : Handling)
  | fatalError
  | exit
  | time (modification : Int)
  | illegalTime (h : Handling)
  /-- A file or directory: the size as it was read, and the rest of the line. -/
  | entry (dir : Bool) (size : Nat) (name : UnicodeString) (h : Handling)
  | illegalEntry (h : Handling)
  | invalid
deriving DecidableEq

/-- What is done locally, and what becomes of each file or directory record. -/
inductive Event
  /-- A directory is created if need be and descended into. -/
  | enter (path : UnicodeString)
  /-- A file is opened for writing. -/
  | openFile (path : UnicodeString)
  /-- A record for the file or directory with this remote path and time has
  arrived, and was accepted or excluded. -/
  | arrived (level : Nat) (dir : Bool) (size : Nat) (own : UnicodeString) (time : Int)
      (accepted : Bool)
  /-- All bytes of a file were received, in text mode or not, and confirmed. -/
  | stored (own : UnicodeString) (size : Nat) (time : Int) (ascii : Bool)
  /-- A record was skipped or refused. -/
  | skipped
deriving DecidableEq

/-- The transfer settings. What a mask matches is asked with the path of the file,
its kind, size and modification time. -/
structure CopyParam where
  naming : Naming
  allowTransfer : UnicodeString → Bool → Nat → Int → Bool
  skipTransfer : UnicodeString → Bool → Bool
  useAsciiTransfer : UnicodeString → Nat → Int → Bool

/-- Neither the mask nor the list of files to skip excludes a path. -/
def CopyParam.accepts (k : CopyParam) (path : UnicodeString) (dir : Bool) (size : Nat)
    (time : Int) : Bool :=
  k.allowTransfer (getBaseFileName k.naming path) dir size time && !k.skipTransfer path dir

/-- The text or binary decision. -/
def CopyParam.ascii (k : CopyParam) (path : UnicodeString) (size : Nat) (time : Int) : Bool :=
  k.useAsciiTransfer (getBaseFileName k.naming path) size time

structure SinkState where
  records : List Record
  cancel : CancelStatus
  success : Bool
  log : List Event
deriving DecidableEq

/-- The parameters and local variables of a call. -/
structure Frame where
  targetDir : UnicodeString
  fileName : UnicodeString
  sourceDir : UnicodeString
  level : Nat
  initialized : Bool
  skipConfirmed : Bool
  modification : Int

/-- A call returns, or raises an exception to its caller. -/
inductive Flow
  | returned | raised
deriving DecidableEq

def SinkState.note (s : SinkState) (e : Event) : SinkState := { s with log := s.log ++ [e] }

/-- The handler of `EScpFileSkipped`. -/
def SinkState.skip (s : SinkState) (skipConfirmed : Bool) (h : Handling) : SinkState :=
  { s with
    success := false
    cancel := if !skipConfirmed && h.abort then .csCancel else s.cancel
    log := s.log ++ [.skipped] }

/-- The handler of `ESkipFile`. -/
def SinkState.skipFile (s : SinkState) : SinkState :=
  { s with success := false, log := s.log ++ [.skipped] }

/-- What comes of a record: the loop goes on, goes into a directory, or is left. -/
inductive Next
  | loop (f : Frame) (s : SinkState)
  | descend (f : Frame) (inner : Frame) (s : SinkState)
  | leave (flow : Flow) (s : SinkState)

/-- A skip that the user is told of; when that is not handled, it is raised. -/
def skipFileNext (f : Frame) (h : Handling) (s : SinkState) : Next :=
  if h.handled then .loop f s.skipFile else .leave .raised s.skipFile

/-- A file that is neither excluded nor skipped, with its local path. -/
def receiveFile (k : CopyParam) (f : Frame) (size : Nat) (own path : UnicodeString) (h : Handling)
    (s : SinkState) : Next :=
  let opened := s.note (.openFile path)
  match h.file with
  | .refused => .loop { f with skipConfirmed := true } (s.skip true h)
  | .cancelled =>
    .loop { f with skipConfirmed := true } ({ s with cancel := .csCancel }.skip true h)
  | .notOpened => .loop f (s.skip f.skipConfirmed h)
  | .broken => .leave .raised opened
  | .notConfirmed => .loop f (opened.skip f.skipConfirmed h)
  | .fatalResponse => .leave .raised opened
  | .attributesSkipped => skipFileNext f h opened
  | .stored =>
    let ascii := k.ascii f.fileName size f.modification
    .loop f (opened.note (.stored own size f.modification ascii))

/-- A directory that is neither excluded nor skipped. -/
def receiveDirectory (f : Frame) (own path : UnicodeString) (h : Handling) (s : SinkState) : Next :=
  match h.directory with
  | .isFile => .loop f (s.skip f.skipConfirmed h)
  | .skipped => skipFileNext f h s
  | .broken => .leave .raised s
  | .entered =>
    .descend f ⟨path, own, unixIncludeTrailingBackslash own, f.level + 1, true, false, 0⟩
      (s.note (.enter path))

/-- A record of a file or directory. The masks are asked about the name that the
call was given, and not about the one of the record. -/
def receiveEntry (k : CopyParam) (f : Frame) (dir : Bool) (size : Nat) (name : UnicodeString)
    (h : Handling) (s : SinkState) : Next :=
  let onlyFileName := unixExtractFileName name
  if f.level = 0 ∧ onlyFileName ≠ unixExtractFileName f.fileName then
    .loop f (s.skip f.skipConfirmed h)
  else
    let own := f.sourceDir ++ onlyFileName
    match h.cancel with
    | some cancel => skipFileNext f h { s with cancel }
    | none =>
      let accepted := k.accepts f.fileName dir size f.modification
      let s := s.note (.arrived f.level dir size own f.modification accepted)
      if !accepted then
        .loop { f with skipConfirmed := true } (s.skip true h)
      else
        match changeFileName k.naming onlyFileName (f.level == 0) with
        | none => .leave .raised s
        | some destFileNameOnly =>
          let path := includeTrailingBackslash f.targetDir ++ destFileNameOnly
          if dir then receiveDirectory f own path h s
          else receiveFile k f size own path h s

/-- One pass of the loop. -/
def receiveRecord (k : CopyParam) (f : Frame) (r : Record) (s : SinkState) : Next :=
  let g := { f with initialized := true }
  match r with
  | .empty | .fatalError | .invalid => .leave .raised s
  | .lastLine code =>
    let s := { s with cancel := .csRemoteAbort }
    .leave (if code > 1 ∨ f.initialized = false then .raised else .returned) s
  | .exit => .leave .returned s
  | .time modification => .loop { g with modification } s
  | .error h | .illegalTime h | .illegalEntry h => .loop g (s.skip f.skipConfirmed h)
  | .entry dir size name h => receiveEntry k g dir size name h s

/-- The loop. Each pass takes a record, so that `fuel` above the number of records
is enough; without a record the connection is lost. -/
def sink (k : CopyParam) : Nat → Frame → SinkState → Flow × SinkState
  | 0, _, s => (.raised, s)
  | fuel + 1, f, s =>
    if s.cancel ≠ .csContinue then (.returned, s)
    else
      match s.records with
      | [] => (.raised, s)
      | r :: records =>
        match receiveRecord k f r { s with records } with
        | .loop f s => sink k fuel f s
        | .leave flow s => (flow, s)
        | .descend f inner s =>
          match sink k fuel inner s with
          | (.raised, s) => (.raised, s)
          | (.returned, s) => sink k fuel f s

/-- The first call for a source, with its full name. -/
def topFrame (targetDir fullFileName : UnicodeString) : Frame :=
  ⟨targetDir, fullFileName, unixExtractFilePath fullFileName, 0, false, false, 0⟩

def startState (records : List Record) : SinkState := ⟨records, .csContinue, true, []⟩

/-- The download of one source. -/
def download (k : CopyParam) (targetDir fullFileName : UnicodeString) (records : List Record) :
    Flow × SinkState :=
  sink k (records.length + 1) (topFrame targetDir fullFileName) (startState records)

/-! ## What one record does -/

/-- The local path of a record, by the rules for the level of the call. -/
structure LocalPath (k : CopyParam) (f : Frame) (r : Record) (path : UnicodeString) : Prop where
  named : ∃ dir size name h dest, r = .entry dir size name h ∧
    changeFileName k.naming (unixExtractFileName name) (f.level == 0) = some dest ∧
    path = includeTrailingBackslash f.targetDir ++ dest ∧
    (f.level = 0 → unixExtractFileName name = unixExtractFileName f.fileName)

def Event.path? : Event → Option UnicodeString
  | .enter path | .openFile path => some path
  | _ => none

/-- Only local variables of the call have changed. -/
structure Frame.Same (f g : Frame) : Prop where
  targetDir : g.targetDir = f.targetDir
  fileName : g.fileName = f.fileName
  sourceDir : g.sourceDir = f.sourceDir
  level : g.level = f.level

/-- The state goes on with the same records, and the local paths it has newly
touched are paths of the record. -/
structure Touches (k : CopyParam) (f : Frame) (r : Record) (s t : SinkState) : Prop where
  records : t.records = s.records
  grows : ∃ new, t.log = s.log ++ new ∧ ∀ e ∈ new, ∀ p, e.path? = some p → LocalPath k f r p

/-- What a record leads to. -/
def Next.Allowed (k : CopyParam) (f : Frame) (r : Record) (s : SinkState) : Next → Prop
  | .loop g t => f.Same g ∧ Touches k f r s t
  | .leave _ t => Touches k f r s t
  | .descend g inner t => f.Same g ∧ Touches k f r s t ∧ LocalPath k f r inner.targetDir ∧
    inner.level = f.level + 1

variable {k : CopyParam} {f : Frame} {r : Record} {s : SinkState}

theorem Touches.refl : Touches k f r s s := ⟨rfl, [], by simp, fun e he => nomatch he⟩

variable {t : SinkState}

theorem Touches.quiet {new : List Event} (hrecords : t.records = s.records)
    (hlog : t.log = s.log ++ new) (hnew : ∀ e ∈ new, e.path? = none) : Touches k f r s t := by
  refine ⟨hrecords, new, hlog, fun e he p hp => ?_⟩
  rw [hnew e he] at hp
  cases hp

theorem Touches.trans {t u : SinkState} (h : Touches k f r s t) (h' : Touches k f r t u) :
    Touches k f r s u := by
  obtain ⟨hrecords, new, hlog, hnew⟩ := h
  obtain ⟨hrecords', new', hlog', hnew'⟩ := h'
  refine ⟨hrecords'.trans hrecords, new ++ new', by rw [hlog', hlog, append_assoc], ?_⟩
  intro e he
  rcases mem_append.mp he with he | he
  · exact hnew e he
  · exact hnew' e he

theorem Touches.skip (skipConfirmed : Bool) (h : Handling) :
    Touches k f r s (s.skip skipConfirmed h) :=
  .quiet rfl rfl (by simp [Event.path?])

theorem Touches.skipFile : Touches k f r s s.skipFile :=
  .quiet rfl rfl (by simp [Event.path?])

theorem Touches.path {e : Event} (h : ∀ p, e.path? = some p → LocalPath k f r p) :
    Touches k f r s (s.note e) := by
  refine ⟨rfl, [e], rfl, fun e' he' => ?_⟩
  rw [mem_singleton.mp he']
  exact h

theorem skipFileNext_allowed {g : Frame} (h : Handling) (hsame : f.Same g) (ht : Touches k f r s t) :
    (skipFileNext g h t).Allowed k f r s := by
  unfold skipFileNext
  split
  · exact ⟨hsame, ht.trans .skipFile⟩
  · exact ht.trans .skipFile

theorem receiveFile_allowed {g : Frame} {size : Nat} {own path : UnicodeString} {h : Handling}
    (hsame : f.Same g) (ht : Touches k f r s t) (hpath : LocalPath k f r path) :
    (receiveFile k g size own path h t).Allowed k f r s := by
  have hopened : Touches k f r s (t.note (.openFile path)) :=
    ht.trans (.path fun p hp => Option.some.inj hp ▸ hpath)
  have hconfirmed : f.Same { g with skipConfirmed := true } := ⟨hsame.1, hsame.2, hsame.3, hsame.4⟩
  unfold receiveFile
  cases h.file with
  | refused => exact ⟨hconfirmed, ht.trans (.skip true h)⟩
  | cancelled =>
    have hcancel : Touches k f r t { t with cancel := .csCancel } := ⟨rfl, [], by simp, by simp⟩
    exact ⟨hconfirmed, (ht.trans hcancel).trans (.skip true h)⟩
  | notOpened => exact ⟨hsame, ht.trans (.skip _ h)⟩
  | broken => exact hopened
  | notConfirmed => exact ⟨hsame, hopened.trans (.skip _ h)⟩
  | fatalResponse => exact hopened
  | attributesSkipped => exact skipFileNext_allowed h hsame hopened
  | stored => exact ⟨hsame, hopened.trans (.path fun p hp => nomatch hp)⟩

theorem receiveDirectory_allowed {g : Frame} {own path : UnicodeString} {h : Handling}
    (hsame : f.Same g) (ht : Touches k f r s t) (hpath : LocalPath k f r path) :
    (receiveDirectory g own path h t).Allowed k f r s := by
  unfold receiveDirectory
  cases h.directory with
  | isFile => exact ⟨hsame, ht.trans (.skip _ h)⟩
  | skipped => exact skipFileNext_allowed h hsame ht
  | broken => exact ht
  | entered =>
    refine ⟨hsame, ht.trans (.path fun p hp => Option.some.inj hp ▸ hpath), hpath, ?_⟩
    change g.level + 1 = f.level + 1
    rw [hsame.level]

theorem receiveEntry_allowed {g : Frame} {dir : Bool} {size : Nat} {name : UnicodeString}
    {h : Handling} (hsame : f.Same g) (hr : r = .entry dir size name h) :
    (receiveEntry k g dir size name h s).Allowed k f r s := by
  have hconfirmed : f.Same { g with skipConfirmed := true } := ⟨hsame.1, hsame.2, hsame.3, hsame.4⟩
  have harrived : Touches k f r s (s.note (.arrived g.level dir size
      (g.sourceDir ++ unixExtractFileName name) g.modification
      (k.accepts g.fileName dir size g.modification))) :=
    .path fun p hp => nomatch hp
  unfold receiveEntry
  dsimp only
  split
  · exact ⟨hsame, .skip _ h⟩
  · next hrequested =>
    split
    · exact skipFileNext_allowed h hsame ⟨rfl, [], by simp, by simp⟩
    · split
      · exact ⟨hconfirmed, harrived.trans (.skip true h)⟩
      · split
        · exact harrived
        · next dest hdest =>
          have hpath : LocalPath k f r (includeTrailingBackslash g.targetDir ++ dest) := by
            refine ⟨dir, size, name, h, dest, hr, hsame.level ▸ hdest, by rw [hsame.targetDir], ?_⟩
            intro hlevel
            rw [hsame.level, hsame.fileName] at hrequested
            by_contra hne
            exact hrequested ⟨hlevel, hne⟩
          split
          · exact receiveDirectory_allowed hsame harrived hpath
          · exact receiveFile_allowed hsame harrived hpath

/-- One pass of the loop keeps to the paths of its record. -/
theorem receiveRecord_allowed (k : CopyParam) (f : Frame) (r : Record) (s : SinkState) :
    (receiveRecord k f r s).Allowed k f r s := by
  have hsame : ∀ {m : Int}, f.Same { f with initialized := true, modification := m } :=
    ⟨rfl, rfl, rfl, rfl⟩
  cases r with
  | lastLine code => exact ⟨rfl, [], by simp, fun e he => nomatch he⟩
  | empty => exact Touches.refl
  | fatalError => exact Touches.refl
  | invalid => exact Touches.refl
  | exit => exact Touches.refl
  | time modification => exact ⟨hsame, .refl⟩
  | error h => exact ⟨hsame, .skip _ h⟩
  | illegalTime h => exact ⟨hsame, .skip _ h⟩
  | illegalEntry h => exact ⟨hsame, .skip _ h⟩
  | entry dir size name h => exact receiveEntry_allowed hsame rfl

/-- The rule for the loop: what holds of leaving it at once and is kept by each
way a record can lead holds of every call. -/
theorem sink_rule (k : CopyParam) {P : Frame → SinkState → Flow × SinkState → Prop}
    (stop : ∀ f s flow, P f s (flow, s))
    (leave : ∀ f s r records flow t, s.records = r :: records →
      receiveRecord k f r { s with records } = .leave flow t → P f s (flow, t))
    (loop : ∀ f s r records g t o, s.records = r :: records →
      receiveRecord k f r { s with records } = .loop g t → P g t o → P f s o)
    (descend : ∀ f s r records g inner t u o, s.records = r :: records →
      receiveRecord k f r { s with records } = .descend g inner t → P inner t (.returned, u) →
      P g u o → P f s o)
    (broken : ∀ f s r records g inner t u, s.records = r :: records →
      receiveRecord k f r { s with records } = .descend g inner t → P inner t (.raised, u) →
      P f s (.raised, u)) (fuel : Nat) (f : Frame) (s : SinkState) : P f s (sink k fuel f s) := by
  induction fuel generalizing f s with
  | zero => exact stop f s _
  | succ fuel ih =>
    rw [sink]
    split
    · exact stop f s _
    · split
      · exact stop f s _
      · next r records hrecords =>
        cases hnext : receiveRecord k f r { s with records } with
        | loop g t => exact loop f s r records g t _ hrecords hnext (ih g t)
        | leave flow t => exact leave f s r records flow t hrecords hnext
        | descend g inner t =>
          dsimp only
          have hinner := ih inner t
          generalize sink k fuel inner t = o at hinner ⊢
          obtain ⟨flow, u⟩ := o
          cases flow with
          | raised => exact broken f s r records g inner t u hrecords hnext hinner
          | returned => exact descend f s r records g inner t u _ hrecords hnext hinner (ih g u)

/-! ## Enough fuel -/

theorem sink_length (k : CopyParam) (fuel : Nat) (f : Frame) (s : SinkState) :
    (sink k fuel f s).2.records.length ≤ s.records.length := by
  have hstep : ∀ {f : Frame} {s : SinkState} {r : Record} {records : List Record} {t : SinkState},
      s.records = r :: records → Touches k f r { s with records } t →
      t.records.length ≤ s.records.length := by
    intro f s r records t hs ht
    rw [ht.records, hs]
    exact Nat.le_succ _
  refine sink_rule k (P := fun _ s o => o.2.records.length ≤ s.records.length)
    (fun _ _ _ => Nat.le_refl _) ?_ ?_ ?_ ?_ fuel f s
  · intro f s r records flow t hs hnext
    have hallowed := receiveRecord_allowed k f r { s with records }
    rw [hnext] at hallowed
    exact hstep hs hallowed
  · intro f s r records g t o hs hnext ih
    have hallowed := receiveRecord_allowed k f r { s with records }
    rw [hnext] at hallowed
    exact Nat.le_trans ih (hstep hs hallowed.2)
  · intro f s r records g inner t u o hs hnext ihinner ih
    have hallowed := receiveRecord_allowed k f r { s with records }
    rw [hnext] at hallowed
    exact Nat.le_trans (Nat.le_trans ih ihinner) (hstep hs hallowed.2.1)
  · intro f s r records g inner t u hs hnext ihinner
    have hallowed := receiveRecord_allowed k f r { s with records }
    rw [hnext] at hallowed
    exact Nat.le_trans ihinner (hstep hs hallowed.2.1)

theorem sink_fuel {fuel fuel' : Nat} (k : CopyParam) (f : Frame) (s : SinkState)
    (h : s.records.length < fuel) (h' : s.records.length < fuel') :
    sink k fuel f s = sink k fuel' f s := by
  induction fuel generalizing fuel' f s with
  | zero => exact absurd h (Nat.not_lt_zero _)
  | succ fuel ih =>
    cases fuel' with
    | zero => exact absurd h' (Nat.not_lt_zero _)
    | succ fuel' =>
      rw [sink, sink]
      split
      · rfl
      · split
        · rfl
        · next r records hs =>
          have hallowed := receiveRecord_allowed k f r { s with records }
          rw [hs, length_cons] at h h'
          cases hnext : receiveRecord k f r { s with records } with
          | leave flow t => rfl
          | loop g t =>
            rw [hnext] at hallowed
            have ht : t.records = records := hallowed.2.records
            exact ih g t (by rw [ht]; omega) (by rw [ht]; omega)
          | descend g inner t =>
            rw [hnext] at hallowed
            have ht : t.records = records := hallowed.2.1.records
            have hinner : sink k fuel inner t = sink k fuel' inner t :=
              ih inner t (by rw [ht]; omega) (by rw [ht]; omega)
            have hlength := sink_length k fuel' inner t
            dsimp only
            rw [hinner]
            generalize sink k fuel' inner t = o at hlength ⊢
            obtain ⟨flow, u⟩ := o
            cases flow with
            | raised => rfl
            | returned =>
              rw [ht] at hlength
              exact ih g u (by dsimp only at hlength; omega) (by dsimp only at hlength; omega)

/-- The loop with as much fuel as it takes. -/
def runSink (k : CopyParam) (f : Frame) (s : SinkState) : Flow × SinkState :=
  sink k (s.records.length + 1) f s

/-- The loop, one pass at a time. -/
theorem runSink_cons {records : List Record} (hs : s.records = r :: records)
    (hcancel : s.cancel = .csContinue) :
    runSink k f s =
      match receiveRecord k f r { s with records } with
      | .loop g t => runSink k g t
      | .leave flow t => (flow, t)
      | .descend g inner t =>
        match runSink k inner t with
        | (.raised, u) => (.raised, u)
        | (.returned, u) => runSink k g u := by
  have hallowed := receiveRecord_allowed k f r { s with records }
  unfold runSink
  rw [hs, length_cons, sink, if_neg (by simp [hcancel])]
  simp only [hs]
  cases hnext : receiveRecord k f r { s with records } with
  | leave flow t => rfl
  | loop g t =>
    rw [hnext] at hallowed
    have ht : t.records = records := hallowed.2.records
    exact sink_fuel k g t (by rw [ht]; omega) (Nat.lt_succ_self _)
  | descend g inner t =>
    rw [hnext] at hallowed
    have ht : t.records = records := hallowed.2.1.records
    have hinner : sink k (records.length + 1) inner t = sink k (t.records.length + 1) inner t := by
      rw [ht]
    have hlength := sink_length k (t.records.length + 1) inner t
    dsimp only
    rw [hinner]
    generalize sink k (t.records.length + 1) inner t = o at hlength ⊢
    obtain ⟨flow, u⟩ := o
    cases flow with
    | raised => rfl
    | returned =>
      dsimp only at hlength ⊢
      rw [ht] at hlength
      exact sink_fuel k g u (by omega) (Nat.lt_succ_self _)

end NetBox.Scp
