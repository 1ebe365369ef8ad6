import NetBox.Base.Text
import NetBox.Lib.Cursor

/-! # The work list of a parallel transfer

`TParallelOperation` of Terminal.cpp: several connections take entries of one
collected file list, or parts of one big file, and report them done. Every
method below runs under the critical section of the operation, except the
merging of parts, which is in `Parallel.Merge`. Log lines are left out, and so
are the events that only wake a waiting client.
-/
namespace NetBox.Parallel.Operation
open Base.Text Lib.KeyMap Lib.Cursor

inductive Side
  | osLocal
  | osRemote
  deriving DecidableEq, Repr

inductive QueueFileState
  | qfsQueued
  | qfsProcessed
  deriving DecidableEq, Repr

/-- `TCollectedFileList::TFileData`; `object` is the pointer that travels with it. -/
structure CollectedFile where
  fileName : UnicodeString
  object : Option Nat := none
  dir : Bool
  recursed : Bool := true
  state : QueueFileState := .qfsQueued
  deriving DecidableEq, Repr

/-- The fields of `TCopyParamType` that an operation sets for one part. -/
structure CopyParam where
  fileMask : UnicodeString := []
  partOffset : Int := -1
  partSize : Int := -1
  deriving DecidableEq, Repr

structure DirectoryData where
  oppositePath : UnicodeString
  fileExists : Bool
  deriving DecidableEq, Repr

/-- What an operation asks of the terminal it serves. -/
structure Terminal where
  changeFileName : CopyParam → UnicodeString → Side → Bool → UnicodeString

structure ParallelOperation where
  side : Side
  /-- The root path of every collected list, with the list. -/
  fileList : List (UnicodeString × List CollectedFile)
  targetDir : UnicodeString
  copyParam : CopyParam
  listIndex : Nat := 0
  index : Nat := 0
  directories : List (UnicodeString × DirectoryData) := []
  version : Nat := 0
  probablyEmpty : Bool := false
  isParallelFileTransfer : Bool
  parallelFileSize : Int
  parallelFileOffset : Int := 0
  parallelFileCount : Nat := 0
  parallelFileTargetName : UnicodeString := []
  parallelFileOffsets : List Int := []
  parallelFileDones : List Bool := []
  parallelFileMerging : Bool := false
  parallelFileMerged : Nat := 0
  deriving DecidableEq

/-- `TParallelOperation::Init`. A negative `parallelFileSize` stands for the
transfer of a list. -/
def init (side : Side) (fileList : List (UnicodeString × List CollectedFile))
    (targetDir : UnicodeString) (copyParam : CopyParam) (parallelFileSize : Int) :
    ParallelOperation where
  side := side
  fileList := fileList
  targetDir := targetDir
  copyParam := copyParam
  isParallelFileTransfer := decide (0 ≤ parallelFileSize)
  parallelFileSize := parallelFileSize

inductive Error
  | invalidOperation (message : String)
  deriving DecidableEq, Repr

/-- The result of `GetNext` and what it writes through its parameters. The
values below are those `CopyToParallel` passes in. -/
structure Handout where
  result : Int := 1
  fileName : UnicodeString := []
  object : Option Nat := none
  targetDir : UnicodeString := []
  dir : Bool := false
  recursed : Bool := false
  customCopyParam : Option CopyParam := none
  deriving DecidableEq, Repr

def partialExt : UnicodeString := wstr ".filepart"

def getPartPrefix (fileName : UnicodeString) : UnicodeString := fileName ++ partialExt ++ wstr "."

def delimitFileNameMask (mask : UnicodeString) : UnicodeString :=
  mask.flatMap fun ch => if (wstr "\\*?").contains ch then [backslash, ch] else [ch]

namespace ParallelOperation

variable (s : ParallelOperation)

def checkEnd (files : List CollectedFile) : Bool × ParallelOperation :=
  if files.length ≤ s.index then (true, { s with listIndex := s.listIndex + 1, index := 0 })
  else (false, s)

/-- The loop at the head of `GetNext`: skip the lists that are used up. A list
can be empty when its only file was excluded by a mask. -/
def seekFiles : Nat → ParallelOperation → Option (UnicodeString × List CollectedFile) × ParallelOperation
  | 0, s => (none, s)
  | n + 1, s =>
    match s.fileList[s.listIndex]? with
    | none => (none, s)
    | some files =>
      match s.checkEnd files.2 with
      | (true, s) => seekFiles n s
      | (false, s) => (some files, s)

def dirPath (side : Side) (fileName : UnicodeString) : UnicodeString :=
  match side with
  | .osLocal => excludeTrailingBackslash (extractFileDir fileName)
  | .osRemote => excludeTrailingBackslash (unixExtractFileDir fileName)

def firstLevel (c : Collation) (side : Side) (dirPath rootPath : UnicodeString) : Bool :=
  match side with
  | .osLocal => samePaths c dirPath rootPath
  | .osRemote => unixSamePath dirPath rootPath

/-- Where an entry goes: the result so far and the directory on the other side. -/
def parentTarget (c : Collation) (isFirst : Bool) (dirPath : UnicodeString) :
    Except Error (Int × UnicodeString) :=
  if isFirst then .ok (1, s.targetDir)
  else match find? c.keys s.directories dirPath with
    | none => .error (.invalidOperation "Parent path not known")
    | some data => if data.fileExists then .ok (1, data.oppositePath)
        else .ok (0, []) -- wait for parent directory to be created

def onlyFileName (t : Terminal) (file : CollectedFile) (isFirst : Bool) : UnicodeString :=
  if file.dir || s.isParallelFileTransfer then
    t.changeFileName s.copyParam
      (match s.side with
        | .osLocal => extractFilename file.fileName backslash
        | .osRemote => unixExtractFileName file.fileName) s.side isFirst
  else []

def registerDirectory (c : Collation) (file : CollectedFile) (targetDir onlyFileName : UnicodeString) :
    ParallelOperation :=
  if file.dir then
    let data : DirectoryData :=
      { oppositePath := match s.side with
          | .osLocal => unixCombinePaths targetDir onlyFileName
          | .osRemote => combinePaths targetDir onlyFileName
        fileExists := false }
    { s with
      directories := insert c.keys s.directories (excludeTrailingBackslash file.fileName) data }
  else s

/-- The size a part would have, and whether the rest of the file is taken
instead: when it is no longer than that, or longer by less than a tenth. -/
def cutsRest (limit : Int) : Bool :=
  let remaining := s.parallelFileSize - s.parallelFileOffset
  let partSize := s.parallelFileSize.tdiv limit
  decide (remaining ≤ partSize) || decide (remaining - partSize < partSize.tdiv 10)

/-- The part `GetNext` hands out next. `limit` is the limit of queue transfers
read by this call. -/
def nextPart (limit : Int) (onlyFileName : UnicodeString) : CopyParam :=
  { s.copyParam with
    partOffset := s.parallelFileOffset
    partSize := if s.cutsRest limit then -1 else s.parallelFileSize.tdiv limit
    fileMask := delimitFileNameMask (getPartPrefix onlyFileName ++ intToStr s.parallelFileCount) }

def takePart (limit : Int) (onlyFileName : UnicodeString) : ParallelOperation :=
  { s with
    parallelFileTargetName :=
      if s.parallelFileTargetName.isEmpty then onlyFileName else s.parallelFileTargetName
    parallelFileCount := s.parallelFileCount + 1
    parallelFileOffsets := s.parallelFileOffsets ++ [s.parallelFileOffset]
    parallelFileDones := s.parallelFileDones ++ [false]
    parallelFileOffset := if s.cutsRest limit then s.parallelFileSize
      else s.parallelFileOffset + s.parallelFileSize.tdiv limit }

/-- All files before the cursor become processed one by one. -/
def markProcessed (files : List CollectedFile) : ParallelOperation :=
  let s := { s with
    fileList := s.fileList.modify s.listIndex fun l =>
      (l.1, l.2.modify s.index fun f => { f with state := .qfsProcessed })
    index := s.index + 1 }
  (s.checkEnd files).2

def setProbablyEmpty : ParallelOperation :=
  { s with probablyEmpty := decide (s.fileList.length = s.listIndex) }

/-- What `GetNext` does with the entry at the cursor once its target is known. -/
def handOut (c : Collation) (t : Terminal) (limit : Int) (files : List CollectedFile)
    (file : CollectedFile) (isFirst : Bool) (targetDir : UnicodeString) :
    Option CopyParam × ParallelOperation :=
  let name := s.onlyFileName t file isFirst
  let s := s.registerDirectory c file targetDir name
  if s.isParallelFileTransfer then
    let s' := s.takePart limit name
    (some (s.nextPart limit name), if s.cutsRest limit then s'.markProcessed files else s')
  else (none, s.markProcessed files)

/-- `TParallelOperation::GetNext`. -/
def getNext (c : Collation) (t : Terminal) (limit : Int) : Except Error Handout × ParallelOperation :=
  match seekFiles (s.fileList.length - s.listIndex) s with
  | (none, s) => (.ok { result := -1 }, s.setProbablyEmpty)
  | (some (rootPath, files), s) =>
    match files[s.index]? with
    | none => (.ok { result := -1 }, s.setProbablyEmpty) -- not reached: the cursor is inside
    | some file =>
      let dirPath := dirPath s.side file.fileName
      let isFirst := firstLevel c s.side dirPath rootPath
      match s.parentTarget c isFirst dirPath with
      | .error e => (.error e, s)
      | .ok (result, targetDir) =>
        let out : Handout :=
          { result, fileName := file.fileName, object := file.object, targetDir, dir := file.dir,
            recursed := file.recursed }
        if targetDir.isEmpty then (.ok out, s.setProbablyEmpty)
        else
          let r := s.handOut c t limit files file isFirst targetDir
          (.ok { out with customCopyParam := r.1 }, r.2.setProbablyEmpty)

def withTrailingSlash (side : Side) (fileName : UnicodeString) : UnicodeString :=
  match side with
  | .osLocal => includeTrailingBackslash fileName
  | .osRemote => unixIncludeTrailingBackslash fileName

/-- Drop the entries of the current list that lie below a failed directory. -/
def removeBelow (fileName : UnicodeString) : ParallelOperation :=
  match s.fileList[s.listIndex]? with
  | none => s
  | some files =>
    let sub := withTrailingSlash s.side fileName
    let r := scan (fun f => startsText sub f.fileName) files.2 0 s.index
    { s with
      fileList := s.fileList.set s.listIndex (files.1, r.1)
      index := r.2.1
      version := s.version + r.2.2 }

/-- `TParallelOperation::Done` of a directory. -/
def doneDirectory (c : Collation) (fileName : UnicodeString) (success : Bool) : ParallelOperation :=
  match find? c.keys s.directories fileName with
  | none => s
  | some _ =>
    if success then
      { s with
        directories := modify c.keys s.directories fileName
          fun data => { data with fileExists := true } }
    else
      removeBelow { s with directories := erase c.keys s.directories fileName } fileName

end ParallelOperation

open ParallelOperation in
/-- The code recognises a remote entry right below the root of its list exactly
when the path of the root has no separator but the last. -/
theorem firstLevel_iff {rootDir name : UnicodeString} {side : Side} (hn : slash ∉ name)
    (hs : side = .osRemote) (c : Collation) :
    firstLevel c side (dirPath side (rootDir ++ slash :: name)) (rootDir ++ [slash]) = true ↔
      PlainDir rootDir := by
  simp only [hs, firstLevel, dirPath]
  rw [unixExtractFileDir_join rootDir hn]
  exact unixSamePath_root_iff rootDir

end NetBox.Parallel.Operation
