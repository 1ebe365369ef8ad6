import NetBox.Parallel.Parts
import NetBox.Lib.Run
import Mathlib.Logic.Function.Basic

/-! # Merging the parts of a big file

A client that has transferred its part reports it with `Done`. The first one
to report finds nobody merging, takes the merging flag and appends parts to
the target in order until the next one is missing; it leaves the critical
section for every single part. Others only mark their part as done meanwhile.
A step below is one stretch under the critical section or the merge of one
part outside of it. The limit of queue transfers is one digit and files that
are cut into parts have at least a kilobyte, so it is at least 1 and at most
the size of the file.
-/
namespace NetBox.Parallel.Merge
open Base.Text Lib.Run Parallel.Operation Parallel.Parts List
open Parallel.Operation.ParallelOperation

/-- What `CopyToParallel` got from `GetNext` and will pass to `Done`. -/
structure Job where
  fileName : UnicodeString
  targetDir : UnicodeString
  copyParam : CopyParam
  deriving DecidableEq, Repr

/-- A client inside the merge loop: the part it reported, its place in the
list of parts, what the progress of its terminal counts as transferred and
the target name, which it reads on entry. -/
structure Merger where
  job : Job
  index : Nat
  transferred : Int
  targetName : UnicodeString
  deriving DecidableEq, Repr

inductive Activity
  | idle
  | transferring (job : Job)
  /-- About to look for the next part, under the critical section. -/
  | looping (m : Merger)
  /-- About to merge the next part, outside of the critical section. -/
  | merging (m : Merger)
  deriving DecidableEq, Repr

namespace Activity

def merger? : Activity → Option Merger
  | idle | transferring _ => none
  | looping m | merging m => some m

def job? : Activity → Option Job
  | idle => none
  | transferring job => some job
  | looping m | merging m => some m.job

end Activity

/-- What `Done` can raise: `INCONSISTENT_SIZE` with its arguments, or the error
of an operation on a local file. -/
inductive DoneError
  | inconsistentSize (partName : UnicodeString) (transferred partSize : Int)
  | localFile
  deriving DecidableEq, Repr

/-- Operations on local files that have succeeded. Appending deletes the part. -/
inductive LocalOp
  | renamePart (index : Nat) (source target : UnicodeString)
  | appendPart (index : Nat) (source target : UnicodeString)
  | renameCompleted (source target : UnicodeString)
  deriving DecidableEq, Repr

/-- The part an operation merges; the final rename merges none. -/
def LocalOp.part? : LocalOp → Option Nat
  | renamePart index _ _ | appendPart index _ _ => some index
  | renameCompleted _ _ => none

/-- The operation and its clients, with the history that properties speak
about: parts by index, the bytes reported for each, the parts whose `Done`
has returned and those whose `Done` has raised. -/
structure System (Client : Type) where
  op : ParallelOperation
  activity : Client → Activity := fun _ => .idle
  cancel : Bool := false
  localOps : List LocalOp := []
  parts : List CopyParam := []
  reported : Nat → Option Int := fun _ => none
  returned : List Nat := []
  raised : List (Nat × DoneError) := []

def partIndex (s : ParallelOperation) (copyParam : CopyParam) : Option Nat :=
  s.parallelFileOffsets.findIdx? fun offset => offset == copyParam.partOffset

/-- The merge loop goes on: the next part was handed out and is done. -/
def canMerge (s : ParallelOperation) : Bool :=
  decide (s.parallelFileMerged < s.parallelFileCount) &&
    s.parallelFileDones[s.parallelFileMerged]?.getD false

def isComplete (s : ParallelOperation) : Bool :=
  decide (s.parallelFileMerged = s.parallelFileCount) &&
    decide (s.parallelFileOffset = s.parallelFileSize)

/-- The local file of part `index`, named after the file the client transferred. -/
def Merger.partName (m : Merger) (index : Nat) : UnicodeString :=
  getPartPrefix (combinePaths m.job.targetDir (unixExtractFileName m.job.fileName)) ++ intToStr index

def Merger.targetNamePartial (m : Merger) : UnicodeString := m.targetName ++ partialExt

/-- The size check of the merge loop reads what the merging client transferred
itself, whatever part it is about to merge. -/
def Merger.inconsistent (m : Merger) : Bool :=
  decide (0 ≤ m.job.copyParam.partSize) && decide (m.transferred ≠ m.job.copyParam.partSize)

variable {Client : Type} [DecidableEq Client]

namespace System

variable (s : System Client)

def getNext (col : Collation) (c : Client) (t : Terminal) (limit : Int) : System Client :=
  match s.op.getNext col t limit with
  | (.error _, op) => { s with op }
  | (.ok out, op) =>
    if 0 < out.result then
      { s with
        op
        activity := Function.update s.activity c (.transferring
          ⟨out.fileName, out.targetDir, out.customCopyParam.getD s.op.copyParam⟩)
        parts := s.parts ++ out.customCopyParam.toList }
    else { s with op }

def leave (c : Client) (m : Merger) : System Client :=
  { s with
    op := { s.op with parallelFileMerging := false }
    activity := Function.update s.activity c .idle
    returned := s.returned ++ [m.index] }

/-- An exception leaves the loop: the flag is reset and the transfer cancelled. -/
def raise (c : Client) (m : Merger) (e : DoneError) : System Client :=
  { s with
    op := { s.op with parallelFileMerging := false }
    activity := Function.update s.activity c .idle
    cancel := true
    raised := s.raised ++ [(m.index, e)] }

/-- The head of the merge loop. `works` says whether the local file can be
renamed, should the file be complete. -/
def mergeLoop (c : Client) (m : Merger) (works : Bool) : System Client :=
  if canMerge s.op then { s with activity := Function.update s.activity c (.merging m) }
  else if isComplete s.op then
    if works then
      { s.leave c m with
        localOps := s.localOps ++ [.renameCompleted m.targetNamePartial m.targetName] }
    else s.raise c m .localFile
  else s.leave c m

/-- The body of the merge loop, outside of the critical section. -/
def merge (c : Client) (m : Merger) (works : Bool) : System Client :=
  let index := s.op.parallelFileMerged
  if m.inconsistent then
    s.raise c m (.inconsistentSize (m.partName index) m.transferred m.job.copyParam.partSize)
  else if works then
    { s with
      op := { s.op with parallelFileMerged := index + 1 }
      activity := Function.update s.activity c (.looping m)
      localOps := s.localOps ++ [if index = 0
        then .renamePart index (m.partName index) m.targetNamePartial
        else .appendPart index (m.partName index) m.targetNamePartial] }
  else s.raise c m .localFile

def report (i : Nat) (transferred : Int) : System Client :=
  { s with
    op := { s.op with parallelFileDones := s.op.parallelFileDones.set i true }
    reported := Function.update s.reported i (some transferred) }

/-- Take the merging flag and go to the head of the loop. -/
def enter (c : Client) (m : Merger) : System Client :=
  { s with
    op := { s.op with parallelFileMerging := true }
    activity := Function.update s.activity c (.looping m) }

/-- `TParallelOperation::Done` of a file. -/
def done (c : Client) (job : Job) (success : Bool) (transferred : Int) (works : Bool) :
    System Client :=
  if !success then { s with activity := Function.update s.activity c .idle, cancel := true }
  else if s.op.side ≠ .osRemote then { s with activity := Function.update s.activity c .idle }
  else match partIndex s.op job.copyParam with
    | none => { s with activity := Function.update s.activity c .idle }
    | some i =>
      if s.op.parallelFileMerging then
        { s.report i transferred with
          activity := Function.update s.activity c .idle
          returned := s.returned ++ [i] }
      else
        let m : Merger :=
          { job, index := i, transferred
            targetName := combinePaths job.targetDir s.op.parallelFileTargetName }
        ((s.report i transferred).enter c m).mergeLoop c m works

end System

inductive Action (Client : Type)
  | getNext (c : Client) (t : Terminal) (limit : Int)
  | done (c : Client) (success : Bool) (transferred : Int) (works : Bool)
  | merge (c : Client) (works : Bool)
  | relock (c : Client) (works : Bool)

def step (col : Collation) (s : System Client) : Action Client → Option (System Client)
  | .getNext c t limit =>
    match s.activity c with
    | .idle =>
      if 1 ≤ limit ∧ limit ≤ s.op.parallelFileSize then some (s.getNext col c t limit) else none
    | _ => none
  | .done c success transferred works =>
    match s.activity c with
    | .transferring job => some (s.done c job success transferred works)
    | _ => none
  | .merge c works =>
    match s.activity c with
    | .merging m => some (s.merge c m works)
    | _ => none
  | .relock c works =>
    match s.activity c with
    | .looping m => some (s.mergeLoop c m works)
    | _ => none

/-- What can happen in a step, with what made it possible. -/
theorem step_cases {col : Collation} {s t : System Client} {a : Action Client}
    (h : step col s a = some t) :
    (∃ c term limit, a = .getNext c term limit ∧ s.activity c = .idle ∧ 1 ≤ limit ∧
      limit ≤ s.op.parallelFileSize ∧ t = s.getNext col c term limit) ∨
    (∃ c job success n works, a = .done c success n works ∧ s.activity c = .transferring job ∧
      t = s.done c job success n works) ∨
    (∃ c m works, a = .merge c works ∧ s.activity c = .merging m ∧ t = s.merge c m works) ∨
    (∃ c m works, a = .relock c works ∧ s.activity c = .looping m ∧ t = s.mergeLoop c m works) := by
  cases a with
  | getNext c term limit =>
    simp only [step] at h
    split at h
    · rename_i ha
      split at h
      · rename_i hl
        exact .inl ⟨c, term, limit, rfl, ha, hl.1, hl.2, (Option.some.inj h).symm⟩
      · cases h
    · cases h
  | done c success n works =>
    simp only [step] at h
    split at h
    · rename_i job ha
      exact .inr (.inl ⟨c, job, success, n, works, rfl, ha, (Option.some.inj h).symm⟩)
    · cases h
  | merge c works =>
    simp only [step] at h
    split at h
    · rename_i m ha
      exact .inr (.inr (.inl ⟨c, m, works, rfl, ha, (Option.some.inj h).symm⟩))
    · cases h
  | relock c works =>
    simp only [step] at h
    split at h
    · rename_i m ha
      exact .inr (.inr (.inr ⟨c, m, works, rfl, ha, (Option.some.inj h).symm⟩))
    · cases h

/-! ## Handing out -/

/-- The operation serves one remote file, which is open or used up. -/
structure Shape (rootDir name : UnicodeString) (size : Int) (s : ParallelOperation) : Prop where
  side : s.side = .osRemote
  fileSize : s.parallelFileSize = size
  cursor : (Open rootDir name size s s.parallelFileOffset ∧ s.directories = [] ∧
    s.parallelFileOffset < size) ∨ (Closed s ∧ s.parallelFileOffset = size)

/-- What handing out a part changes. -/
structure Grows (s s' : ParallelOperation) : Prop where
  offset : s.parallelFileOffset < s'.parallelFileOffset
  offsets : s'.parallelFileOffsets = s.parallelFileOffsets ++ [s.parallelFileOffset]
  dones : s'.parallelFileDones = s.parallelFileDones ++ [false]
  count : s'.parallelFileCount = s.parallelFileCount + 1
  targetDir : s'.targetDir = s.targetDir
  merging : s'.parallelFileMerging = s.parallelFileMerging
  merged : s'.parallelFileMerged = s.parallelFileMerged

/-- The file of part `index`, of a file that is stored as `name`. -/
def partFile (name : UnicodeString) (index : Nat) : UnicodeString := getPartPrefix name ++ intToStr index

/-- The names that go with a part: those of the job, and those the operation keeps. -/
structure Given (rootDir name : UnicodeString) (t : Terminal) (s s' : ParallelOperation)
    (out : Handout) (part : CopyParam) : Prop where
  fileName : out.fileName = rootDir ++ slash :: name
  dir : out.targetDir = s.targetDir
  mask : part.fileMask = delimitFileNameMask
    (partFile (t.changeFileName s.copyParam name .osRemote true) s.parallelFileCount)
  target : s'.parallelFileTargetName = if s.parallelFileTargetName.isEmpty
    then t.changeFileName s.copyParam name .osRemote true else s.parallelFileTargetName
  copyParam : s'.copyParam = s.copyParam

variable {rootDir name : UnicodeString} {size : Int} {s : ParallelOperation}

theorem Shape.take (h : Shape rootDir name size s) (hn : slash ∉ name)
    (hlt : s.parallelFileOffset < size) (hopen : Open rootDir name size s s.parallelFileOffset)
    (hd : s.directories = []) (ht : s.targetDir ≠ []) (hp : PlainDir rootDir) (col : Collation)
    (t : Terminal) {limit : Int} (h1 : 1 ≤ limit) (h2 : limit ≤ size) :
    Grows s (s.getNext col t limit).2 ∧ Shape rootDir name size (s.getNext col t limit).2 := by
  have hpos := tdiv_pos_of_le h1 h2
  have hcursor := getNext_open hn hopen ht hp col t limit
  obtain ⟨file, onlyName, -, -, -, -, hr⟩ := getNext_part hn hopen ht hp col t limit
  rw [hr] at hcursor ⊢
  by_cases hcut : s.cutsRest limit = true
  · simp only [hcut, if_true] at hcursor ⊢
    refine ⟨⟨?_, ?_, ?_, ?_, ?_, ?_, ?_⟩, ?_, ?_, .inr ⟨hcursor, ?_⟩⟩ <;>
      simp [setProbablyEmpty, markProcessed, checkEnd, takePart, hopen.index, hcut, h.side, h.fileSize, hlt]
  · simp only [hcut, if_false, Bool.false_eq_true] at hcursor ⊢
    have hoff : (s.takePart limit onlyName).setProbablyEmpty.parallelFileOffset =
        s.parallelFileOffset + size.tdiv limit := by
      simp [setProbablyEmpty, takePart, hcut, h.fileSize]
    have hrest : s.parallelFileOffset + size.tdiv limit < size := by
      simp only [cutsRest, h.fileSize, Bool.or_eq_true, decide_eq_true_eq, not_or] at hcut
      omega
    exact ⟨⟨by omega, rfl, rfl, rfl, rfl, rfl, rfl⟩, h.side, h.fileSize,
      .inl ⟨hoff ▸ hcursor, hd, by omega⟩⟩

/-- A call of `GetNext` hands out no part, and then changes nothing that
matters, or it hands out the part that starts at the current offset. A job
without a part is one for an operation that has no target directory. -/
theorem Shape.getNext (h : Shape rootDir name size s) (hn : slash ∉ name) (col : Collation)
    (t : Terminal) {limit : Int} (h1 : 1 ≤ limit) (h2 : limit ≤ size) :
    (∃ r b, s.getNext col t limit = (r, { s with probablyEmpty := b }) ∧
      ∀ out, r = .ok out → 0 < out.result → out.customCopyParam = none ∧ s.targetDir = [] ∧
        out.fileName = rootDir ++ slash :: name ∧ out.targetDir = s.targetDir) ∨
    (∃ out part s', s.getNext col t limit = (.ok out, s') ∧ out.result = 1 ∧
      out.customCopyParam = some part ∧ part.partOffset = s.parallelFileOffset ∧
      s.targetDir ≠ [] ∧ Grows s s' ∧ Shape rootDir name size s' ∧
      Given rootDir name t s s' out part) := by
  rcases h.cursor with ⟨hopen, hd, hlt⟩ | ⟨hclosed, _⟩
  · by_cases hp : s.targetDir ≠ [] ∧ PlainDir rootDir
    · obtain ⟨file, onlyName, rfl, -, hname, -, hr⟩ := getNext_part hn hopen hp.1 hp.2 col t limit
      obtain ⟨hg, hs⟩ := h.take hn hlt hopen hd hp.1 hp.2 col t h1 h2
      rw [hr] at hg hs
      refine .inr ⟨_, _, _, hr, rfl, rfl, rfl, hp.1, hg, hs, hname, rfl, rfl, ?_, ?_⟩ <;>
        split <;> simp [setProbablyEmpty, markProcessed, checkEnd, takePart, hopen.index]
    · rcases getNext_stuck hn hopen hd hp col t limit with ⟨e, hr⟩ | ⟨ht, out, hr, hout⟩
      · refine .inl ⟨_, s.probablyEmpty, hr, ?_⟩
        intro out hout; cases hout
      · refine .inl ⟨_, _, hr, ?_⟩
        intro out' he _
        cases he
        exact ⟨hout.1, ht, hout.2⟩
  · refine .inl ⟨_, _, getNext_closed col t limit hclosed, ?_⟩
    intro out he hpos
    cases he
    simp at hpos

theorem Shape.update (h : Shape rootDir name size s) (b merging : Bool) (dones : List Bool)
    (merged : Nat) :
    Shape rootDir name size { s with
      probablyEmpty := b, parallelFileDones := dones, parallelFileMerging := merging
      parallelFileMerged := merged } := by
  refine ⟨h.side, h.fileSize, ?_⟩
  rcases h.cursor with ⟨ho, hd, hlt⟩ | hc
  · exact .inl ⟨⟨ho.side, ho.files, ho.listIndex, ho.index, ho.mode, ho.size, ho.offset⟩, hd, hlt⟩
  · exact .inr hc

theorem Shape.offset_le (h : Shape rootDir name size s) : s.parallelFileOffset ≤ size := by
  rcases h.cursor with ⟨-, -, hlt⟩ | ⟨-, he⟩ <;> omega

/-- The lists of the operation, against the parts that were handed out. -/
structure Handed (rootDir name : UnicodeString) (size : Int) (op : ParallelOperation)
    (parts : List CopyParam) : Prop where
  shape : Shape rootDir name size op
  plain : op.targetDir = [] → parts = []
  offsets : op.parallelFileOffsets = parts.map CopyParam.partOffset
  dones : op.parallelFileDones.length = parts.length
  count : op.parallelFileCount = parts.length
  below : ∀ p ∈ parts, p.partOffset < op.parallelFileOffset
  begun : parts = [] → op.parallelFileOffset = 0

variable {op op' : ParallelOperation} {parts : List CopyParam}

theorem Handed.update (h : Handed rootDir name size op parts) (b merging : Bool) {dones : List Bool}
    (merged : Nat) (hd : dones.length = op.parallelFileDones.length) :
    Handed rootDir name size { op with
      probablyEmpty := b, parallelFileDones := dones, parallelFileMerging := merging
      parallelFileMerged := merged } parts :=
  ⟨h.shape.update b merging dones merged, h.plain, h.offsets, hd.trans h.dones, h.count, h.below,
    h.begun⟩

theorem Handed.take (h : Handed rootDir name size op parts) (hg : Grows op op')
    (hs : Shape rootDir name size op') (ht : op.targetDir ≠ []) {part : CopyParam}
    (hp : part.partOffset = op.parallelFileOffset) :
    Handed rootDir name size op' (parts ++ [part]) where
  shape := hs
  plain := fun he => absurd (hg.targetDir ▸ he) ht
  offsets := by simp [hg.offsets, h.offsets, hp]
  dones := by simp [hg.dones, h.dones]
  count := by simp [hg.count, h.count]
  below := by
    intro p hm
    have hlt := hg.offset
    rcases mem_append.mp hm with hm | hm
    · have := h.below p hm; omega
    · rw [mem_singleton.mp hm, hp]; exact hlt
  begun := fun he => by simp at he

theorem Handed.partIndex_lt (h : Handed rootDir name size op parts) {p : CopyParam} {i : Nat}
    (hi : partIndex op p = some i) : i < parts.length := by
  have := (findIdx?_eq_some_iff_getElem.mp hi).1
  rwa [h.offsets, length_map] at this

/-- No part starts at the current offset yet. -/
theorem Handed.partIndex_next (h : Handed rootDir name size op parts) {p : CopyParam}
    (hp : p.partOffset = op.parallelFileOffset) : partIndex op p = none := by
  apply findIdx?_eq_none_iff.mpr
  intro o ho
  rw [h.offsets] at ho
  obtain ⟨q, hq, rfl⟩ := mem_map.mp ho
  have := h.below q hq
  simp only [beq_eq_false_iff_ne, ne_eq]
  omega

theorem Grows.partIndex (hg : Grows op op') (p : CopyParam) :
    partIndex op' p = (partIndex op p).or
      (if op.parallelFileOffset = p.partOffset then some op.parallelFileOffsets.length else none) := by
  simp only [Merge.partIndex, hg.offsets, findIdx?_append]
  congr 1
  by_cases ho : op.parallelFileOffset = p.partOffset <;> simp [ho]

end NetBox.Parallel.Merge
