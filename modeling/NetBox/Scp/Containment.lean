import NetBox.Scp.Sink

/-! # A download and the directory it goes to

The path of a record is put together from the directory of the call and the local
name of the record, and the call for a directory goes on from there. So a download
stays inside its target directory as long as the local names are plain ones. The
names of the records are used without looking for `..`.
-/
namespace NetBox.Scp
open Base.Text List

/-- All local paths that a download has touched are strictly below the target
directory. -/
def Contained (targetDir : UnicodeString) (log : List Event) : Prop :=
  ∀ e ∈ log, ∀ path, e.path? = some path → StrictlyBelow targetDir path

/-- The local names of all records in the list are plain ones. -/
def PlainRecords (k : CopyParam) (records : List Record) : Prop :=
  ∀ dir size name h, .entry dir size name h ∈ records →
    ∀ dest, changeFileName k.naming (unixExtractFileName name) false = some dest → PlainName dest

/-- The local name of the source itself is a plain one. -/
def PlainSource (k : CopyParam) (fileName : UnicodeString) : Prop :=
  ∀ dest, changeFileName k.naming (unixExtractFileName fileName) true = some dest → PlainName dest

variable {k : CopyParam} {f : Frame} {records : List Record}

theorem LocalPath.strictlyBelow {r : Record} {path : UnicodeString} (h : LocalPath k f r path)
    (hr : r ∈ records) (hrecords : PlainRecords k records)
    (hsource : f.level = 0 → PlainSource k f.fileName) : StrictlyBelow f.targetDir path := by
  obtain ⟨dir, size, name, hd, dest, rfl, hdest, rfl, htop⟩ := h.named
  refine .plain ?_ f.targetDir
  by_cases hlevel : f.level = 0
  · rw [htop hlevel, hlevel] at hdest
    exact hsource hlevel dest hdest
  · have hnot : (f.level == 0) = false := by simpa using hlevel
    rw [hnot] at hdest
    exact hrecords dir size name hd hr dest hdest

/-- A call reads some of the records, and what it adds to the log stays below its directory
when their names are plain. -/
def Kept (k : CopyParam) (f : Frame) (s t : SinkState) : Prop :=
  ∃ read new, s.records = read ++ t.records ∧ t.log = s.log ++ new ∧
    (PlainRecords k read → (f.level = 0 → PlainSource k f.fileName) → Contained f.targetDir new)

theorem PlainRecords.of_append {read read' : List Record} (h : PlainRecords k (read ++ read')) :
    PlainRecords k read ∧ PlainRecords k read' :=
  ⟨fun dir size name hd hmem => h dir size name hd (mem_append_left _ hmem),
    fun dir size name hd hmem => h dir size name hd (mem_append_right _ hmem)⟩

/-- A record was read, and another call goes on from there. -/
theorem Touches.kept {r : Record} {g : Frame} {s t u : SinkState} (hs : s.records = r :: records)
    (ht : Touches k f r { s with records } t)
    (hdir : (∀ p, LocalPath k f r p → StrictlyBelow f.targetDir p) →
      ∀ p, StrictlyBelow g.targetDir p → StrictlyBelow f.targetDir p)
    (hsource : (f.level = 0 → PlainSource k f.fileName) → g.level = 0 → PlainSource k g.fileName)
    (h : Kept k g t u) : Kept k f s u := by
  obtain ⟨new, hlog, hnew⟩ := ht.grows
  obtain ⟨read, new', hread, hlog', hnew'⟩ := h
  refine ⟨r :: read, new ++ new', ?_, ?_, fun hplain hf => ?_⟩
  · rw [hs, cons_append, ← hread, ht.records]
  · rw [hlog', hlog, append_assoc]
  · have hplain := @PlainRecords.of_append k [r] read hplain
    have hbelow : ∀ p, LocalPath k f r p → StrictlyBelow f.targetDir p := fun p hp =>
      hp.strictlyBelow mem_cons_self hplain.1 hf
    intro e he p hp
    rcases mem_append.mp he with he | he
    · exact hbelow p (hnew e he p hp)
    · exact hdir hbelow p (hnew' hplain.2 (hsource hf) e he p hp)

theorem Kept.refl (s : SinkState) : Kept k f s s :=
  ⟨[], [], rfl, (append_nil _).symm, fun _ _ => nofun⟩

/-- The same directory goes on after a call inside it. -/
theorem Kept.trans {g : Frame} {s t u : SinkState} (h : Kept k f s t) (hsame : f.Same g)
    (h' : Kept k g t u) : Kept k f s u := by
  obtain ⟨read, new, hread, hlog, hnew⟩ := h
  obtain ⟨read', new', hread', hlog', hnew'⟩ := h'
  refine ⟨read ++ read', new ++ new', ?_, ?_, fun hplain hf => ?_⟩
  · rw [hread, hread', append_assoc]
  · rw [hlog', hlog, append_assoc]
  · intro e he p hp
    rcases mem_append.mp he with he | he
    · exact hnew hplain.of_append.1 hf e he p hp
    · rw [← hsame.targetDir]
      refine hnew' hplain.of_append.2 ?_ e he p hp
      rwa [hsame.level, hsame.fileName]

/-- A call for a directory that was received. -/
theorem Kept.descend {r : Record} {g inner : Frame} {s t u : SinkState}
    (hs : s.records = r :: records)
    (hnext : receiveRecord k f r { s with records } = .descend g inner t)
    (hinner : Kept k inner t u) : f.Same g ∧ Kept k f s u := by
  have hallowed := receiveRecord_allowed k f r { s with records }
  rw [hnext] at hallowed
  obtain ⟨hsame, ht, hpath, hlevel⟩ := hallowed
  refine ⟨hsame, ht.kept hs (fun hbelow p hp => (hbelow _ hpath).trans hp) (fun _ hzero => ?_) hinner⟩
  rw [hlevel] at hzero
  exact absurd hzero (Nat.succ_ne_zero _)

/-- Every call stays below its directory when the local names are plain. -/
theorem sink_kept (k : CopyParam) (fuel : Nat) (f : Frame) (s : SinkState) :
    Kept k f s (sink k fuel f s).2 := by
  refine sink_rule k (P := fun f s o => Kept k f s o.2) (fun f s flow => .refl s) ?_ ?_ ?_ ?_ fuel f s
  · intro f s r records flow t hs hnext
    have hallowed := receiveRecord_allowed k f r { s with records }
    rw [hnext] at hallowed
    exact hallowed.kept hs (fun _ _ hp => hp) (fun hf => hf) (.refl t)
  · intro f s r records g t o hs hnext ih
    have hallowed := receiveRecord_allowed k f r { s with records }
    rw [hnext] at hallowed
    obtain ⟨hsame, ht⟩ := hallowed
    refine ht.kept hs (fun _ p hp => hsame.targetDir ▸ hp) (fun hf => ?_) ih
    rwa [hsame.level, hsame.fileName]
  · intro f s r records g inner t u o hs hnext hinner ih
    obtain ⟨hsame, hkept⟩ := Kept.descend hs hnext hinner
    exact hkept.trans hsame ih
  · intro f s r records g inner t u hs hnext hinner
    exact (Kept.descend hs hnext hinner).2

/-- A download stays strictly inside its target directory when the local names
of the source and of the records that are read are plain: not empty, not `.` or `..`, and
without a separator. -/
theorem download_contained (k : CopyParam) (targetDir fullFileName : UnicodeString)
    (records read : List Record) (hsource : PlainSource k fullFileName)
    (hread : records = read ++ (download k targetDir fullFileName records).2.records)
    (hrecords : PlainRecords k read) :
    Contained targetDir (download k targetDir fullFileName records).2.log := by
  obtain ⟨read', new, hread', hlog, hnew⟩ := sink_kept k (records.length + 1)
    (topFrame targetDir fullFileName) (startState records)
  have hsame : read' = read := append_cancel_right (hread'.symm.trans hread)
  rw [download, hlog]
  exact hnew (hsame ▸ hrecords) fun _ => hsource

/-- The default settings: no mask, no change of case, characters replaced by
tokens. -/
def defaultNaming : Naming where
  trimVMSVersions := false
  fileMask := []
  fileNameCase := .ncNoChange
  upperCase := id
  lowerCase := id
  invalidCharsReplacement := tokenReplacement
  tokenizibleChars := wstr "/\\:*?\"<>|"
  localInvalidChars := wstr "/\\:*?\"<>|"

def defaultParam : CopyParam where
  naming := defaultNaming
  allowTransfer := fun _ _ _ _ => true
  skipTransfer := fun _ _ => false
  useAsciiTransfer := fun _ _ _ => false

/-- Nothing goes wrong locally. -/
def smooth : Handling := ⟨none, .stored, .entered, false, true⟩

/-- The requested directory with one file inside. -/
def plainTree : List Record :=
  [.entry true 0 (wstr "d") smooth, .entry false 1 (wstr "f") smooth, .exit, .lastLine 0]

theorem download_contained_sample :
    Contained (wstr "C:\\t") (download defaultParam (wstr "C:\\t") (wstr "/r/d") plainTree).2.log := by
  refine download_contained defaultParam _ _ _ plainTree ?_ (by decide +kernel) ?_
  · intro dest hdest
    have hname : changeFileName defaultParam.naming (unixExtractFileName (wstr "/r/d")) true =
        some (wstr "d") := by decide +kernel
    rw [hname] at hdest
    cases hdest
    decide
  · intro dir size name h hmem dest hdest
    have hname : name = wstr "d" ∨ name = wstr "f" := by
      simp only [plainTree, List.mem_cons, Record.entry.injEq, reduceCtorEq, List.not_mem_nil,
        or_false] at hmem
      exact hmem.imp (fun h => h.2.2.1) fun h => h.2.2.1
    have hsame : ∀ name, name = wstr "d" ∨ name = wstr "f" →
        changeFileName defaultParam.naming (unixExtractFileName name) false = some name := by
      intro name hname
      rcases hname with rfl | rfl <;> decide +kernel
    rw [hsame name hname] at hdest
    cases hdest
    rcases hname with rfl | rfl <;> decide

/-- The requested directory, then `..` twice, then a file. -/
def climbing : List Record :=
  [.entry true 0 (wstr "d") smooth, .entry true 0 (wstr "..") smooth,
    .entry true 0 (wstr "..") smooth, .entry false 1 (wstr "evil") smooth, .lastLine 0]

/-- A server that sends `..` as the name of a directory gets the client to write
outside the target directory. -/
theorem download_escapes :
    ¬Contained (wstr "C:\\t") (download defaultParam (wstr "C:\\t") (wstr "/r/d") climbing).2.log := by
  intro h
  have hopened : Event.openFile (wstr "C:\\t\\d\\..\\..\\evil") ∈
      (download defaultParam (wstr "C:\\t") (wstr "/r/d") climbing).2.log := by
    decide +kernel
  obtain ⟨rest, -, hplace⟩ := h _ hopened _ rfl
  have hhead := congrArg (·[1]?) hplace
  rw [List.getElem?_append_left (by decide)] at hhead
  revert hhead
  decide

end NetBox.Scp
