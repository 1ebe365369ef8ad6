import NetBox.Scp.Containment

/-! # Which path the masks are asked about

A server sends a directory tree record by record, and leaves out what is inside
of a directory that the client does not accept. The masks should be asked about
the path of each file and directory. They are asked about the name that the call
was given: the requested one on the first level, and below it the path of the
directory that the record is in.
-/
namespace NetBox.Scp
open Base.Text List

/-- A file or directory of the server, with its time. -/
inductive Tree
  | file (name : UnicodeString) (size : Nat) (time : Int)
  | dir (name : UnicodeString) (size : Nat) (time : Int) (children : List Tree)

def Tree.name : Tree → UnicodeString
  | .file name _ _ | .dir name _ _ _ => name

/-- The remote path of an entry of the directory of a call. -/
def Frame.own (f : Frame) (name : UnicodeString) : UnicodeString :=
  f.sourceDir ++ unixExtractFileName name

/-- The local path of an entry, when it has a local name. -/
def Frame.path (k : CopyParam) (f : Frame) (name : UnicodeString) : UnicodeString :=
  includeTrailingBackslash f.targetDir ++
    (changeFileName k.naming (unixExtractFileName name) (f.level == 0)).getD []

/-- The call for a directory. -/
def Frame.inside (k : CopyParam) (f : Frame) (name : UnicodeString) : Frame :=
  ⟨f.path k name, f.own name, unixIncludeTrailingBackslash (f.own name), f.level + 1, true, false, 0⟩

/-- The time of an entry as the client knows it: only when times are preserved the
server sends them. -/
def known (preserve : Bool) (time : Int) : Int := if preserve then time else 0

def timeRecord (preserve : Bool) (time : Int) : List Record :=
  if preserve then [.time time] else []

variable (k : CopyParam) (preserve : Bool)

mutual
/-- What the server sends for a tree, given what the client accepts. -/
def Tree.send (f : Frame) : Tree → List Record
  | .file name size time => timeRecord preserve time ++ [.entry false size name smooth]
  | .dir name size time children =>
    timeRecord preserve time ++ [.entry true size name smooth] ++
      if k.accepts f.fileName true size (known preserve time) then
        sendAll (f.inside k name) children ++ [.exit]
      else []
def sendAll (f : Frame) : List Tree → List Record
  | [] => []
  | tree :: trees => tree.send f ++ sendAll f trees
end

mutual
/-- What the client does about a tree. -/
def Tree.events (f : Frame) : Tree → List Event
  | .file name size time =>
    let accepted := k.accepts f.fileName false size (known preserve time)
    .arrived f.level false size (f.own name) (known preserve time) accepted ::
      if accepted then
        [.openFile (f.path k name), .stored (f.own name) size (known preserve time)
          (k.ascii f.fileName size (known preserve time))]
      else [.skipped]
  | .dir name size time children =>
    let accepted := k.accepts f.fileName true size (known preserve time)
    .arrived f.level true size (f.own name) (known preserve time) accepted ::
      if accepted then .enter (f.path k name) :: eventsAll (f.inside k name) children
      else [.skipped]
def eventsAll (f : Frame) : List Tree → List Event
  | [] => []
  | tree :: trees => tree.events f ++ eventsAll f trees
end

mutual
/-- The masks answer for the name they are asked about as they would for the path
of the entry, throughout the directories that are entered. -/
def Tree.Agree (f : Frame) : Tree → Prop
  | .file name size time =>
    k.accepts f.fileName false size (known preserve time) =
      k.accepts (f.own name) false size (known preserve time) ∧
    (k.accepts f.fileName false size (known preserve time) = true →
      k.ascii f.fileName size (known preserve time) = k.ascii (f.own name) size (known preserve time))
  | .dir name size time children =>
    k.accepts f.fileName true size (known preserve time) =
      k.accepts (f.own name) true size (known preserve time) ∧
    (k.accepts f.fileName true size (known preserve time) = true →
      AgreeAll (f.inside k name) children)
def AgreeAll (f : Frame) : List Tree → Prop
  | [] => True
  | tree :: trees => tree.Agree f ∧ AgreeAll f trees
end

mutual
/-- The files that the masks allow, with all directories above them. -/
def Tree.wanted (f : Frame) : Tree → List UnicodeString
  | .file name size time =>
    if k.accepts (f.own name) false size (known preserve time) then [f.own name] else []
  | .dir name size time children =>
    if k.accepts (f.own name) true size (known preserve time) then
      wantedAll (f.inside k name) children
    else []
def wantedAll (f : Frame) : List Tree → List UnicodeString
  | [] => []
  | tree :: trees => tree.wanted f ++ wantedAll f trees
end

mutual
/-- All names have a local name. -/
def Tree.Nameable (f : Frame) : Tree → Prop
  | .file name _ _ =>
    (changeFileName k.naming (unixExtractFileName name) (f.level == 0)).isSome = true
  | .dir name _ _ children =>
    (changeFileName k.naming (unixExtractFileName name) (f.level == 0)).isSome = true ∧
      NameableAll (f.inside k name) children
def NameableAll (f : Frame) : List Tree → Prop
  | [] => True
  | tree :: trees => tree.Nameable f ∧ NameableAll f trees
end

/-- An event tells that the masks have answered as for the path of the entry. -/
def Event.Right : Event → Prop
  | .arrived _ dir size own time accepted => accepted = k.accepts own dir size time
  | .stored own size time ascii => ascii = k.ascii own size time
  | _ => True

def Event.stored? : Event → Option UnicodeString
  | .stored own _ _ _ => some own
  | _ => none

/-- Each record is accepted or excluded, and each file transferred as text or not,
as the masks say of its own path; and the files that the masks allow, with the
directories above them, are stored. -/
def FollowsMasks (f : Frame) (tree : Tree) (log : List Event) : Prop :=
  (∀ e ∈ log, e.Right k) ∧ log.filterMap Event.stored? = tree.wanted k preserve f

/-- The requested source, sent in full. -/
def Tree.stream (f : Frame) (tree : Tree) : List Record :=
  tree.send k preserve f ++ [.lastLine 0]

/-! ## The run on a tree -/

variable {k : CopyParam} {preserve : Bool} {f g : Frame}

/-- The call has gone on; its time is one that the server has sent. -/
structure Frame.Going (preserve : Bool) (f g : Frame) : Prop where
  same : f.Same g
  time : preserve = false → g.modification = 0

theorem runSink_time (h : f.Going preserve g) (time : Int) (records : List Record) (success : Bool)
    (log : List Event) :
    ∃ g', f.Going preserve g' ∧ g'.modification = known preserve time ∧
      runSink k g ⟨timeRecord preserve time ++ records, .csContinue, success, log⟩ =
        runSink k g' ⟨records, .csContinue, success, log⟩ := by
  cases preserve with
  | false => exact ⟨g, h, h.time rfl, rfl⟩
  | true =>
    refine ⟨{ g with initialized := true, modification := time },
      ⟨⟨h.same.1, h.same.2, h.same.3, h.same.4⟩, fun h => nomatch h⟩, rfl, ?_⟩
    rw [timeRecord, if_pos rfl, singleton_append, runSink_cons rfl rfl]
    rfl

/-- Whether a record is the one that was asked for, on the first level. -/
def Requested (f : Frame) (name : UnicodeString) : Prop :=
  f.level = 0 → unixExtractFileName name = unixExtractFileName f.fileName

/-- A record that nothing goes wrong with. -/
theorem receiveEntry_smooth (hsame : f.Same g) {dir : Bool} {size : Nat} {name : UnicodeString}
    (hname : Requested f name)
    (hdest : (changeFileName k.naming (unixExtractFileName name) (f.level == 0)).isSome = true)
    (s : SinkState) :
    receiveEntry k g dir size name smooth s =
      let s := s.note (.arrived f.level dir size (f.own name) g.modification
        (k.accepts f.fileName dir size g.modification))
      if k.accepts f.fileName dir size g.modification then
        if dir then .descend g (f.inside k name) (s.note (.enter (f.path k name)))
        else .loop g ((s.note (.openFile (f.path k name))).note
          (.stored (f.own name) size g.modification (k.ascii f.fileName size g.modification)))
      else .loop { g with skipConfirmed := true } (s.skip true smooth) := by
  obtain ⟨dest, hdest⟩ := Option.isSome_iff_exists.mp hdest
  obtain ⟨targetDir, fileName, sourceDir, level, initialized, skipConfirmed, modification⟩ := g
  obtain ⟨htarget, hfile, hsource, hlevel⟩ := hsame
  dsimp only at htarget hfile hsource hlevel
  subst htarget hfile hsource hlevel
  have hrequested : ¬(f.level = 0 ∧ unixExtractFileName name ≠ unixExtractFileName f.fileName) :=
    fun hne => hne.2 (hname hne.1)
  unfold receiveEntry Frame.inside Frame.path Frame.own
  simp only [if_neg hrequested, smooth, hdest, Option.getD_some]
  cases k.accepts f.fileName dir size modification with
  | false => rfl
  | true => cases dir <;> rfl

theorem Frame.Going.initialized (h : f.Going preserve g) :
    f.Going preserve { g with initialized := true } :=
  ⟨⟨h.same.1, h.same.2, h.same.3, h.same.4⟩, h.time⟩

theorem Frame.Going.skipConfirmed (h : f.Going preserve g) :
    f.Going preserve { g with initialized := true, skipConfirmed := true } :=
  ⟨⟨h.same.1, h.same.2, h.same.3, h.same.4⟩, h.time⟩

theorem inside_going (preserve : Bool) (k : CopyParam) (f : Frame) (name : UnicodeString) :
    (f.inside k name).Going preserve (f.inside k name) :=
  ⟨⟨rfl, rfl, rfl, rfl⟩, fun _ => rfl⟩

mutual
/-- The client goes through a tree as its events say. -/
theorem runSink_tree (tree : Tree) {f g : Frame} (h : f.Going preserve g)
    (hname : Requested f tree.name) (hnameable : tree.Nameable k f) (records : List Record)
    (success : Bool) (log : List Event) :
    ∃ g' success', f.Going preserve g' ∧
      runSink k g ⟨tree.send k preserve f ++ records, .csContinue, success, log⟩ =
        runSink k g' ⟨records, .csContinue, success', log ++ tree.events k preserve f⟩ := by
  cases tree with
  | file name size time =>
    change Requested f name at hname
    rw [Tree.Nameable] at hnameable
    rw [Tree.send, Tree.events, append_assoc]
    obtain ⟨g', hg', htime, hrun⟩ := runSink_time (k := k) h time
      ([.entry false size name smooth] ++ records) success log
    rw [hrun, singleton_append, runSink_cons rfl rfl, receiveRecord,
      receiveEntry_smooth hg'.initialized.same hname hnameable]
    simp only [htime]
    cases k.accepts f.fileName false size (known preserve time) with
    | true => exact ⟨_, success, hg'.initialized, by simp [SinkState.note, htime]⟩
    | false =>
      exact ⟨_, false, hg'.skipConfirmed, by simp [SinkState.note, SinkState.skip, smooth, htime]⟩
  | dir name size time children =>
    change Requested f name at hname
    rw [Tree.Nameable] at hnameable
    rw [Tree.send, Tree.events, append_assoc, append_assoc]
    obtain ⟨g', hg', htime, hrun⟩ := runSink_time (k := k) h time
      ([.entry true size name smooth] ++ ((if k.accepts f.fileName true size (known preserve time)
        then sendAll k preserve (f.inside k name) children ++ [.exit] else []) ++ records)) success log
    rw [hrun, singleton_append, runSink_cons rfl rfl, receiveRecord,
      receiveEntry_smooth hg'.initialized.same hname hnameable.1]
    simp only [htime]
    cases k.accepts f.fileName true size (known preserve time) with
    | false =>
      exact ⟨_, false, hg'.skipConfirmed, by simp [SinkState.note, SinkState.skip, smooth, htime]⟩
    | true =>
      obtain ⟨gi, success', hgi, hinner⟩ := runSink_forest children
        (inside_going preserve k f name) (fun tree _ hlevel => nomatch hlevel)
        hnameable.2 (.exit :: records) success
        (log ++ [.arrived f.level true size (f.own name) (known preserve time) true,
          .enter (f.path k name)])
      refine ⟨_, success', hg'.initialized, ?_⟩
      simp only [SinkState.note, if_true, append_assoc,
        cons_append, nil_append] at hinner ⊢
      rw [hinner, runSink_cons rfl rfl]
      simp [receiveRecord, htime]
theorem runSink_forest (trees : List Tree) {f g : Frame} (h : f.Going preserve g)
    (hname : ∀ tree ∈ trees, Requested f tree.name) (hnameable : NameableAll k f trees)
    (records : List Record) (success : Bool) (log : List Event) :
    ∃ g' success', f.Going preserve g' ∧
      runSink k g ⟨sendAll k preserve f trees ++ records, .csContinue, success, log⟩ =
        runSink k g' ⟨records, .csContinue, success', log ++ eventsAll k preserve f trees⟩ := by
  cases trees with
  | nil => exact ⟨g, success, h, by simp [sendAll, eventsAll]⟩
  | cons tree trees =>
    rw [NameableAll] at hnameable
    obtain ⟨g', success', hg', hfirst⟩ := runSink_tree tree h (hname tree mem_cons_self)
      hnameable.1 (sendAll k preserve f trees ++ records) success log
    obtain ⟨g'', success'', hg'', hrest⟩ := runSink_forest trees hg'
      (fun tree htree => hname tree (mem_cons_of_mem _ htree)) hnameable.2 records success'
      (log ++ tree.events k preserve f)
    refine ⟨g'', success'', hg'', ?_⟩
    rw [sendAll, eventsAll, append_assoc, hfirst, hrest, append_assoc]
end

/-! ## When the masks are followed -/

mutual
theorem Tree.right_iff (tree : Tree) (f : Frame) :
    (∀ e ∈ tree.events k preserve f, e.Right k) ↔ tree.Agree k preserve f := by
  cases tree with
  | file name size time =>
    rw [Tree.events, Tree.Agree, forall_mem_cons]
    refine and_congr Iff.rfl ?_
    cases k.accepts f.fileName false size (known preserve time) <;> simp [Event.Right]
  | dir name size time children =>
    rw [Tree.events, Tree.Agree, forall_mem_cons]
    refine and_congr Iff.rfl ?_
    cases k.accepts f.fileName true size (known preserve time) with
    | false => simp [Event.Right]
    | true => simpa [Event.Right] using right_iff_all children (f.inside k name)
theorem right_iff_all (trees : List Tree) (f : Frame) :
    (∀ e ∈ eventsAll k preserve f trees, e.Right k) ↔ AgreeAll k preserve f trees := by
  cases trees with
  | nil => simp [eventsAll, AgreeAll]
  | cons tree trees =>
    rw [eventsAll, AgreeAll, forall_mem_append, tree.right_iff f, right_iff_all trees f]
end

mutual
theorem Tree.Agree.wanted {tree : Tree} {f : Frame} (h : tree.Agree k preserve f) :
    (tree.events k preserve f).filterMap Event.stored? = tree.wanted k preserve f := by
  cases tree with
  | file name size time =>
    rw [Tree.Agree] at h
    rw [Tree.events, Tree.wanted, ← h.1]
    cases k.accepts f.fileName false size (known preserve time) <;> rfl
  | dir name size time children =>
    rw [Tree.Agree] at h
    rw [Tree.events, Tree.wanted, ← h.1]
    cases haccepts : k.accepts f.fileName true size (known preserve time) with
    | false => rfl
    | true => exact AgreeAll.wanted (h.2 haccepts)
theorem AgreeAll.wanted {trees : List Tree} {f : Frame} (h : AgreeAll k preserve f trees) :
    (eventsAll k preserve f trees).filterMap Event.stored? = wantedAll k preserve f trees := by
  cases trees with
  | nil => rfl
  | cons tree trees =>
    rw [AgreeAll] at h
    rw [eventsAll, wantedAll, filterMap_append, h.1.wanted, AgreeAll.wanted h.2]
end

/-- The masks are followed exactly when they answer for the directory of each
record as they do for the path of the record itself. -/
theorem masks_followed_iff (k : CopyParam) (preserve : Bool)
    (targetDir fullFileName : UnicodeString) (tree : Tree)
    (hname : unixExtractFileName tree.name = unixExtractFileName fullFileName)
    (hnameable : tree.Nameable k (topFrame targetDir fullFileName)) :
    FollowsMasks k preserve (topFrame targetDir fullFileName) tree
        (download k targetDir fullFileName
          (tree.stream k preserve (topFrame targetDir fullFileName))).2.log ↔
      tree.Agree k preserve (topFrame targetDir fullFileName) := by
  have hgoing : (topFrame targetDir fullFileName).Going preserve (topFrame targetDir fullFileName) :=
    ⟨⟨rfl, rfl, rfl, rfl⟩, fun _ => rfl⟩
  obtain ⟨g, success, hg, hrun⟩ := runSink_tree tree hgoing (fun _ => hname) hnameable
    [.lastLine 0] true []
  have hlog : (download k targetDir fullFileName
      (tree.stream k preserve (topFrame targetDir fullFileName))).2.log =
      tree.events k preserve (topFrame targetDir fullFileName) := by
    refine (congrArg (fun o => o.2.log) hrun).trans ?_
    rw [runSink_cons rfl rfl]
    rfl
  rw [FollowsMasks, hlog, tree.right_iff]
  exact ⟨fun h => h.1, fun h => ⟨h, h.wanted⟩⟩

/-- A mask that excludes the files whose path ends in `.tmp`. -/
def noTmp : CopyParam :=
  { defaultParam with allowTransfer := fun path _ _ _ => !(wstr ".tmp").isSuffixOf path }

def sampleTree (name : UnicodeString) : Tree := .dir (wstr "d") 0 0 [.file name 1 0]

theorem masks_followed_sample : FollowsMasks noTmp false (topFrame (wstr "C:\\t") (wstr "/r/d"))
    (sampleTree (wstr "f")) (download noTmp (wstr "C:\\t") (wstr "/r/d")
      ((sampleTree (wstr "f")).stream noTmp false (topFrame (wstr "C:\\t") (wstr "/r/d")))).2.log := by
  refine (masks_followed_iff noTmp false (wstr "C:\\t") (wstr "/r/d") (sampleTree (wstr "f"))
    (by decide +kernel) ?_).mpr ?_
  · simp only [sampleTree, Tree.Nameable, NameableAll, and_true]
    decide +kernel
  · simp only [sampleTree, Tree.Agree, AgreeAll, and_true]
    decide +kernel

/-- A file that the mask excludes is stored, since its directory is not excluded. -/
theorem masks_not_followed :
    ¬FollowsMasks noTmp false (topFrame (wstr "C:\\t") (wstr "/r/d")) (sampleTree (wstr "f.tmp"))
      (download noTmp (wstr "C:\\t") (wstr "/r/d") ((sampleTree (wstr "f.tmp")).stream noTmp false
        (topFrame (wstr "C:\\t") (wstr "/r/d")))).2.log := by
  intro h
  have hstored := h.2
  revert hstored
  simp only [sampleTree, Tree.wanted, wantedAll, Tree.stream, Tree.send, sendAll]
  decide +kernel

end NetBox.Scp
