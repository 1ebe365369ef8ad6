import Mathlib.Data.List.Induction
import NetBox.Parallel.Operation

/-! # The file list shown for a parallel transfer

`UpdateFileList` copies the names and states of the collected list to a list that is
shown. It copies all of them only for a new operation or a new version of the list.
Otherwise it walks backwards from the cursor, for as long as the states differ, which
rests on the way that states change: one by one, before the cursor.
-/

namespace NetBox.Parallel.FileList

open Base.Text Lib.Cursor Lib.KeyMap List
open Parallel.Operation Parallel.Operation.ParallelOperation

/-- `TQueueFileList`. Operations are told apart by their addresses. -/
structure QueueFileList where
  list : List (UnicodeString × QueueFileState) := []
  lastParallelOperation : Option Nat := none
  lastParallelOperationVersion : Int := -1

/-- The collected list that `GetFileList(0)` gives. -/
def files (op : ParallelOperation) : List CollectedFile :=
  match op.fileList with
  | [] => []
  | (_, files) :: _ => files

def fullCopy (files : List CollectedFile) : List (UnicodeString × QueueFileState) :=
  files.map fun f => (f.fileName, f.state)

/-- The loop from the position before `index` down. -/
def copyStates (files : List CollectedFile) : Nat → List (UnicodeString × QueueFileState) →
    Bool → Bool × List (UnicodeString × QueueFileState)
  | 0, list, result => (result, list)
  | index + 1, list, result =>
    match list[index]?, files[index]? with
    | some shown, some file =>
      if shown.2 ≠ file.state then
        copyStates files index (list.set index (shown.1, file.state)) true
      else (result, list)
    | _, _ => (result, list)

/-- Whether the whole list is copied. -/
def rebuilds (address : Nat) (op : ParallelOperation) (display : QueueFileList) : Bool :=
  display.lastParallelOperation != some address ||
    display.lastParallelOperationVersion != op.version ||
    display.list.length != (files op).length

def updateFileList (address : Nat) (op : ParallelOperation) (display : QueueFileList) :
    Bool × QueueFileList :=
  let r :=
    if rebuilds address op display then (true, fullCopy (files op))
    else copyStates (files op) (if op.listIndex = 0 then op.index else (files op).length)
      display.list false
  (r.1, {
    list := r.2
    lastParallelOperation := some address
    lastParallelOperationVersion := op.version })

/-! ## Histories -/

inductive Action
  | getNext (t : Terminal) (limit : Int)
  | doneDirectory (fileName : UnicodeString) (success : Bool)
  /-- A report of a file writes only the notes about the parts of one big file. -/
  | doneFile (dones : List Bool) (merging : Bool) (merged : Nat)
  | updateFileList

structure Watched where
  op : ParallelOperation
  display : QueueFileList

def step (c : Collation) (address : Nat) (s : Watched) : Action → Watched
  | .getNext t limit => { s with op := (s.op.getNext c t limit).2 }
  | .doneDirectory fileName success => { s with op := s.op.doneDirectory c fileName success }
  | .doneFile dones merging merged => { s with op := { s.op with
      parallelFileDones := dones
      parallelFileMerging := merging
      parallelFileMerged := merged } }
  | .updateFileList => { s with display := (updateFileList address s.op s.display).2 }

def run (c : Collation) (address : Nat) (s : Watched) (actions : List Action) : Watched :=
  actions.foldl (step c address) s

/-- An operation with one list of files that were just collected, and a list that may
have shown another operation before. -/
def start (side : Side) (rootPath : UnicodeString) (files : List CollectedFile)
    (targetDir : UnicodeString) (copyParam : CopyParam) (parallelFileSize : Int)
    (display : QueueFileList) : Watched where
  op := init side [(rootPath, files.map fun f => { f with state := .qfsQueued })] targetDir
    copyParam parallelFileSize
  display := display

/-! ## How states change -/

/-- The files before the cursor are processed and those behind it queued. -/
structure Marked (op : ParallelOperation) (before behind : List CollectedFile) : Prop where
  single : ∃ rootPath, op.fileList = [(rootPath, before ++ behind)]
  processed : ∀ f ∈ before, f.state = .qfsProcessed
  queued : ∀ f ∈ behind, f.state = .qfsQueued
  cursor : op.listIndex = 0 ∧ op.index = before.length ∨ op.listIndex = 1 ∧ behind = []

/-- The fields that the shown list is made of. -/
structure SameFiles (op op' : ParallelOperation) : Prop where
  fileList : op'.fileList = op.fileList
  listIndex : op'.listIndex = op.listIndex
  index : op'.index = op.index
  version : op'.version = op.version

/-- A call that takes files from the list and deletes none. -/
structure Proceeds (op op' : ParallelOperation) (before behind before' behind' : List CollectedFile) :
    Prop where
  marked : Marked op' before' behind'
  version : op'.version = op.version
  names : (before' ++ behind').map (·.fileName) = (before ++ behind).map (·.fileName)
  length : before.length ≤ before'.length

variable {op op' : ParallelOperation} {before behind : List CollectedFile}

theorem Marked.files_eq (h : Marked op before behind) : files op = before ++ behind := by
  obtain ⟨rootPath, hlist⟩ := h.single
  rw [files, hlist]

theorem Marked.same (h : Marked op before behind) (hs : SameFiles op op') :
    Marked op' before behind where
  single := hs.fileList ▸ h.single
  processed := h.processed
  queued := h.queued
  cursor := by
    rw [hs.listIndex, hs.index]
    exact h.cursor

theorem Marked.stays (h : Marked op before behind) (hs : SameFiles op op') :
    Proceeds op op' before behind before behind :=
  ⟨h.same hs, hs.version, rfl, Nat.le_refl _⟩

/-- At the end of the list the cursor goes to the next one. -/
theorem Marked.ends (h : Marked op before []) (hlist : op'.fileList = op.fileList)
    (hindex : op'.listIndex = 1) : Marked op' before [] where
  single := hlist ▸ h.single
  processed := h.processed
  queued := h.queued
  cursor := .inr ⟨hindex, rfl⟩

private theorem modify_cursor (f : CollectedFile → CollectedFile) (before behind : List CollectedFile)
    (file : CollectedFile) :
    (before ++ file :: behind).modify before.length f = before ++ f file :: behind := by
  induction before with
  | nil => rfl
  | cons a before ih =>
    rw [cons_append, length_cons, modify_succ_cons, ih]
    rfl

theorem Marked.markProcessed {file : CollectedFile} (h : Marked op before (file :: behind))
    {list : List CollectedFile} (hlength : list.length = (before ++ file :: behind).length) :
    Proceeds op (op.markProcessed list) before (file :: behind)
      (before ++ [{ file with state := .qfsProcessed }]) behind := by
  obtain ⟨rootPath, hlist⟩ := h.single
  obtain ⟨hzero, hindex⟩ : op.listIndex = 0 ∧ op.index = before.length := by
    rcases h.cursor with hc | ⟨-, hnil⟩
    · exact hc
    · cases hnil
  have hmodify : op.fileList.modify op.listIndex (fun l =>
      (l.1, l.2.modify op.index fun f => { f with state := .qfsProcessed })) =
        [(rootPath, (before ++ [{ file with state := .qfsProcessed }]) ++ behind)] := by
    rw [hlist, hzero, hindex, modify_zero_cons, modify_cursor, append_assoc]
    rfl
  have hprocessed : ∀ f ∈ before ++ [{ file with state := .qfsProcessed }],
      f.state = .qfsProcessed := by
    intro f hf
    rcases mem_append.mp hf with hf | hf
    · exact h.processed f hf
    · rw [mem_singleton.mp hf]
  have hqueued : ∀ f ∈ behind, f.state = .qfsQueued :=
    fun f hf => h.queued f (mem_cons_of_mem _ hf)
  refine ⟨?_, ?_, by simp, by simp⟩
  · rw [ParallelOperation.markProcessed, checkEnd]
    split
    · rename_i hend
      dsimp only at hend
      refine ⟨⟨rootPath, hmodify⟩, hprocessed, hqueued, .inr ⟨by simp [hzero], ?_⟩⟩
      rw [hlength, hindex, length_append, length_cons] at hend
      exact length_eq_zero_iff.mp (by omega)
    · exact ⟨⟨rootPath, hmodify⟩, hprocessed, hqueued, .inl ⟨hzero, by simp [hindex]⟩⟩
  · rw [ParallelOperation.markProcessed, checkEnd]
    split <;> rfl

/-! ## Taking the next file -/

theorem registerDirectory_same (c : Collation) (file : CollectedFile)
    (targetDir onlyFileName : UnicodeString) :
    SameFiles op (op.registerDirectory c file targetDir onlyFileName) := by
  rw [registerDirectory]
  split <;> exact ⟨rfl, rfl, rfl, rfl⟩

variable {address : Nat} {display : QueueFileList} {before' behind' : List CollectedFile}

/-- The entry at the cursor is marked, or the list is left as it is. -/
theorem Marked.handOut {file : CollectedFile} (h : Marked op before (file :: behind))
    (c : Collation) (t : Terminal) (limit : Int) (isFirst : Bool) (targetDir : UnicodeString) :
    ∃ before' behind', Proceeds op
      (op.handOut c t limit (before ++ file :: behind) file isFirst targetDir).2
      before (file :: behind) before' behind' := by
  have hsame : SameFiles op (op.registerDirectory c file targetDir (op.onlyFileName t file isFirst)) :=
    registerDirectory_same c file targetDir _
  rw [ParallelOperation.handOut]
  generalize op.registerDirectory c file targetDir (op.onlyFileName t file isFirst) = op₁ at *
  dsimp only
  have hmark : ∀ op₂, SameFiles op op₂ → ∃ before' behind',
      Proceeds op (op₂.markProcessed (before ++ file :: behind)) before (file :: behind)
        before' behind' := by
    intro op₂ hs
    have hp := (h.same hs).markProcessed rfl
    exact ⟨_, _, hp.marked, hp.version.trans hs.version, hp.names, hp.length⟩
  split
  · have hpart : SameFiles op (op₁.takePart limit (op.onlyFileName t file isFirst)) :=
      ⟨hsame.fileList, hsame.listIndex, hsame.index, hsame.version⟩
    dsimp only
    split
    · exact hmark _ hpart
    · exact ⟨_, _, h.stays hpart⟩
  · exact hmark _ hsame

theorem setProbablyEmpty_proceeds (h : Proceeds op op' before behind before' behind') :
    Proceeds op op'.setProbablyEmpty before behind before' behind' :=
  ⟨h.marked.same ⟨rfl, rfl, rfl, rfl⟩, h.version, h.names, h.length⟩

theorem Marked.getNext (h : Marked op before behind) (c : Collation) (t : Terminal) (limit : Int) :
    ∃ before' behind', Proceeds op (op.getNext c t limit).2 before behind before' behind' := by
  obtain ⟨rootPath, hlist⟩ := h.single
  rcases h.cursor with ⟨hzero, hindex⟩ | ⟨hone, rfl⟩
  · cases behind with
    | nil =>
      -- the list is used up
      have hseek : seekFiles (op.fileList.length - op.listIndex) op =
          (none, { op with listIndex := 1, index := 0 }) := by
        simp [hlist, hzero, hindex, seekFiles, checkEnd]
      refine ⟨before, [], ?_⟩
      rw [ParallelOperation.getNext, hseek]
      exact ⟨h.ends rfl rfl, rfl, rfl, Nat.le_refl _⟩
    | cons file behind =>
      have hseek : seekFiles (op.fileList.length - op.listIndex) op =
          (some (rootPath, before ++ file :: behind), op) := by
        have hinside : ¬ before.length + (behind.length + 1) ≤ before.length := by omega
        simp [hlist, hzero, hindex, seekFiles, checkEnd, hinside]
      have hfile : (before ++ file :: behind)[op.index]? = some file := by
        rw [hindex]
        simp
      rw [ParallelOperation.getNext, hseek]
      dsimp only
      rw [hfile]
      dsimp only
      split
      · exact ⟨_, _, h.stays ⟨rfl, rfl, rfl, rfl⟩⟩
      · split
        · exact ⟨_, _, h.stays ⟨rfl, rfl, rfl, rfl⟩⟩
        · obtain ⟨before', behind', hp⟩ := h.handOut c t limit _ _
          exact ⟨before', behind', setProbablyEmpty_proceeds hp⟩
  · refine ⟨before, [], ?_⟩
    rw [ParallelOperation.getNext, hlist, hone]
    exact h.stays ⟨rfl, rfl, rfl, rfl⟩

/-! ## Reporting a directory -/

theorem scan_deleted {α : Type} (p : α → Bool) (l : List α) (index cursor : Nat)
    (h : (scan p l index cursor).2.2 = 0) : ∀ a ∈ l, p a = false := by
  induction l generalizing index cursor with
  | nil => exact nofun
  | cons a l ih =>
    rw [scan] at h
    by_cases ha : p a = true
    · rw [if_pos ha] at h
      cases h
    · rw [if_neg ha] at h
      intro b hb
      rcases mem_cons.mp hb with rfl | hb
      · simpa using ha
      · exact ih _ _ h b hb

/-- A deletion makes a new version. -/
theorem Marked.removeBelow (h : Marked op before behind) (fileName : UnicodeString) :
    ∃ before' behind', Marked (op.removeBelow fileName) before' behind' ∧
      (op.version < (op.removeBelow fileName).version ∨
        (op.removeBelow fileName).version = op.version ∧ before' = before ∧ behind' = behind) := by
  obtain ⟨rootPath, hlist⟩ := h.single
  rcases h.cursor with ⟨hzero, hindex⟩ | ⟨hone, rfl⟩
  · have hfiles : op.fileList[op.listIndex]? = some (rootPath, before ++ behind) := by
      rw [hlist, hzero]
      rfl
    rw [ParallelOperation.removeBelow, hfiles]
    dsimp only
    generalize hp : (fun f : CollectedFile =>
      startsText (withTrailingSlash op.side fileName) f.fileName) = p
    have hkept := scan_kept p (before ++ behind) 0 op.index
    have hcursor := scan_index p (before ++ behind) (show op.index ≤ _ by simp [hindex])
    rw [hindex, take_left] at hcursor
    rw [hindex, filter_append] at hkept
    refine ⟨before.filter (!p ·), behind.filter (!p ·), ⟨⟨rootPath, ?_⟩, ?_, ?_, ?_⟩, ?_⟩
    · rw [hlist, hzero, hindex, hkept]
      rfl
    · exact fun f hf => h.processed f (mem_filter.mp hf).1
    · exact fun f hf => h.queued f (mem_filter.mp hf).1
    · exact .inl ⟨hzero, hindex ▸ hcursor⟩
    · by_cases hnone : (scan p (before ++ behind) 0 op.index).2.2 = 0
      · have hall := scan_deleted p _ _ _ hnone
        refine .inr ⟨by rw [hnone, Nat.add_zero], ?_, ?_⟩
        · exact filter_eq_self.mpr fun f hf => by simp [hall f (mem_append_left _ hf)]
        · exact filter_eq_self.mpr fun f hf => by simp [hall f (mem_append_right _ hf)]
      · exact .inl (by omega)
  · have hfiles : op.fileList[op.listIndex]? = none := by
      rw [hlist, hone]
      rfl
    rw [ParallelOperation.removeBelow, hfiles]
    exact ⟨before, [], h, .inr ⟨rfl, rfl, rfl⟩⟩

theorem Marked.doneDirectory (h : Marked op before behind) (c : Collation)
    (fileName : UnicodeString) (success : Bool) :
    ∃ before' behind', Marked (op.doneDirectory c fileName success) before' behind' ∧
      (op.version < (op.doneDirectory c fileName success).version ∨
        (op.doneDirectory c fileName success).version = op.version ∧
          before' = before ∧ behind' = behind) := by
  rw [ParallelOperation.doneDirectory]
  split
  · exact ⟨before, behind, h, .inr ⟨rfl, rfl, rfl⟩⟩
  · split
    · exact ⟨before, behind, h.same ⟨rfl, rfl, rfl, rfl⟩, .inr ⟨rfl, rfl, rfl⟩⟩
    · have hsame : SameFiles op { op with directories := erase c.keys op.directories fileName } :=
        ⟨rfl, rfl, rfl, rfl⟩
      exact (h.same hsame).removeBelow fileName

/-! ## The shown list -/

/-- The shown list has the names, and the states of an earlier cursor. -/
def Follows (names : List UnicodeString) (cursor : Nat)
    (list : List (UnicodeString × QueueFileState)) : Prop :=
  ∃ old new rest, names = old ++ new ++ rest ∧ (old ++ new).length = cursor ∧
    list = old.map (·, .qfsProcessed) ++ (new ++ rest).map (·, .qfsQueued)

theorem Follows.mono {names : List UnicodeString} {cursor cursor' : Nat}
    {list : List (UnicodeString × QueueFileState)} (h : Follows names cursor list)
    (hle : cursor ≤ cursor') (hlength : cursor' ≤ names.length) : Follows names cursor' list := by
  obtain ⟨old, new, rest, rfl, rfl, rfl⟩ := h
  rw [length_append] at hlength
  refine ⟨old, new ++ rest.take (cursor' - (old ++ new).length),
    rest.drop (cursor' - (old ++ new).length), ?_, ?_, ?_⟩
  · simp
  · rw [← append_assoc, length_append, length_take]
    omega
  · simp

theorem copyStates_at {files : List CollectedFile} {f : CollectedFile}
    (front : List (UnicodeString × QueueFileState)) (shown : UnicodeString × QueueFileState)
    (rest : List (UnicodeString × QueueFileState)) (hf : files[front.length]? = some f)
    (result : Bool) :
    copyStates files (front.length + 1) (front ++ shown :: rest) result =
      if shown.2 ≠ f.state then
        copyStates files front.length (front ++ (shown.1, f.state) :: rest) true
      else (result, front ++ shown :: rest) := by
  have hshown : (front ++ shown :: rest)[front.length]? = some shown := by simp
  rw [copyStates, hshown, hf]
  simp

/-- The walk goes back over the states that are new and stops at the first old one. -/
theorem copyStates_follows {files : List CollectedFile} {old new : List UnicodeString}
    (hfiles : ∀ i < (old ++ new).length, ∃ f, files[i]? = some f ∧ f.state = .qfsProcessed)
    (rest : List (UnicodeString × QueueFileState)) (result : Bool) :
    copyStates files (old ++ new).length
      (old.map (·, .qfsProcessed) ++ new.map (·, .qfsQueued) ++ rest) result =
      (result || !new.isEmpty, (old ++ new).map (·, .qfsProcessed) ++ rest) := by
  induction new using List.reverseRecOn generalizing rest result with
  | nil =>
    rcases eq_nil_or_concat old with rfl | ⟨front, last, rfl⟩
    · simp [copyStates]
    · obtain ⟨f, hf, hstate⟩ := hfiles front.length (by simp)
      have hat := copyStates_at (front.map (·, QueueFileState.qfsProcessed)) (last, .qfsProcessed)
        rest (by rw [length_map]; exact hf) result
      rw [hstate, if_neg (by simp), length_map] at hat
      simpa using hat
  | append_singleton new last ih =>
    obtain ⟨f, hf, hstate⟩ := hfiles (old ++ new).length (by simp)
    have hat := copyStates_at
      (old.map (·, QueueFileState.qfsProcessed) ++ new.map (·, QueueFileState.qfsQueued))
      (last, .qfsQueued) rest (by simpa using hf) result
    rw [hstate, if_pos (by simp)] at hat
    have hrest := ih (fun i hi => hfiles i (by
      rw [← append_assoc, length_append]
      omega)) ((last, .qfsProcessed) :: rest) true
    simp only [length_append, length_map] at hat hrest
    simp only [map_append, map_cons, map_nil, length_append, length_cons,
      length_nil, append_assoc, cons_append, nil_append, Nat.zero_add,
      ← Nat.add_assoc] at hat hrest ⊢
    rw [hat, hrest]
    simp

/-- What is shown, and that it was shown for this version of this list. -/
structure Shows (address : Nat) (op : ParallelOperation) (before behind : List CollectedFile)
    (display : QueueFileList) : Prop where
  version : display.lastParallelOperation = some address →
    display.lastParallelOperationVersion ≤ op.version
  follows : display.lastParallelOperation = some address →
    display.lastParallelOperationVersion = op.version →
      Follows ((before ++ behind).map (·.fileName)) before.length display.list

theorem Marked.fullCopy (h : Marked op before behind) : fullCopy (files op) =
    (before.map (·.fileName)).map (·, .qfsProcessed) ++
      (behind.map (·.fileName)).map (·, .qfsQueued) := by
  rw [h.files_eq, FileList.fullCopy, map_append, map_map, map_map]
  congr 1
  · exact map_congr_left fun f hf => by simp [h.processed f hf]
  · exact map_congr_left fun f hf => by simp [h.queued f hf]

theorem Marked.start_index (h : Marked op before behind) :
    (if op.listIndex = 0 then op.index else (files op).length) = before.length := by
  rcases h.cursor with ⟨hzero, hindex⟩ | ⟨hone, rfl⟩
  · rw [if_pos hzero, hindex]
  · rw [if_neg (by omega), h.files_eq, append_nil]

private theorem states_ne_iff (old new : List UnicodeString)
    (rest : List (UnicodeString × QueueFileState)) :
    (old ++ new).map (·, QueueFileState.qfsProcessed) ++ rest ≠
      old.map (·, .qfsProcessed) ++ new.map (·, .qfsQueued) ++ rest ↔ (!new.isEmpty) = true := by
  rw [map_append, append_assoc, append_assoc, Ne, append_right_inj,
    append_left_inj]
  cases new with
  | nil => simp
  | cons name new => simp

/-- What a call of `UpdateFileList` does to a list that shows the operation, or another
one. -/
theorem updateFileList_spec (h : Marked op before behind)
    (hshows : Shows address op before behind display) :
    (updateFileList address op display).2.list = FileList.fullCopy (files op) ∧
    ((updateFileList address op display).1 = true ↔ rebuilds address op display = true ∨
      (updateFileList address op display).2.list ≠ display.list) := by
  rw [updateFileList]
  cases hrebuild : rebuilds address op display with
  | true =>
    rw [if_pos rfl]
    exact ⟨rfl, iff_of_true rfl (.inl rfl)⟩
  | false =>
    rw [if_neg Bool.false_ne_true, h.start_index]
    simp only [rebuilds, Bool.or_eq_false_iff, bne_eq_false_iff_eq] at hrebuild
    obtain ⟨old, new, rest, hnames, hlength, hlist⟩ :=
      hshows.follows hrebuild.1.1 hrebuild.1.2
    obtain ⟨hbefore, hbehind⟩ : before.map (·.fileName) = old ++ new ∧
        behind.map (·.fileName) = rest := by
      rw [map_append] at hnames
      exact append_inj hnames (by rw [length_map, hlength])
    have hprocessed : ∀ i < (old ++ new).length,
        ∃ f, (files op)[i]? = some f ∧ f.state = .qfsProcessed := by
      intro i hi
      rw [hlength] at hi
      refine ⟨before[i], ?_, h.processed _ (getElem_mem hi)⟩
      rw [h.files_eq, getElem?_append_left hi, getElem?_eq_getElem hi]
    have hcopy := copyStates_follows hprocessed (rest.map (·, .qfsQueued)) false
    rw [map_append, ← append_assoc] at hlist
    rw [hlength, ← hlist, Bool.false_or] at hcopy
    rw [hcopy, h.fullCopy, hbefore, hbehind]
    refine ⟨rfl, ?_⟩
    rw [hlist, states_ne_iff]
    simp

/-! ## Over every history -/

structure Inv (address : Nat) (s : Watched) (before behind : List CollectedFile) : Prop where
  marked : Marked s.op before behind
  shows : Shows address s.op before behind s.display

theorem Shows.proceeds (h : Shows address op before behind display)
    (hp : Proceeds op op' before behind before' behind') :
    Shows address op' before' behind' display where
  version hself := hp.version ▸ h.version hself
  follows hself hversion := by
    rw [hp.names]
    rw [hp.version] at hversion
    refine (h.follows hself hversion).mono hp.length ?_
    have hle : before'.length ≤ ((before' ++ behind').map (·.fileName)).length := by simp
    rwa [hp.names] at hle

/-- A list that shows an older version does not show the new one. -/
theorem Shows.deleted (h : Shows address op before behind display)
    (hversion : op.version < op'.version) :
    Shows address op' before' behind' display where
  version hself := by
    have := h.version hself
    omega
  follows hself heq := by
    have := h.version hself
    omega

theorem Inv.step {s : Watched} (h : Inv address s before behind) (c : Collation) (a : Action) :
    ∃ before' behind', Inv address (step c address s a) before' behind' := by
  cases a with
  | getNext t limit =>
    obtain ⟨before', behind', hp⟩ := h.marked.getNext c t limit
    exact ⟨before', behind', hp.marked, h.shows.proceeds hp⟩
  | doneDirectory fileName success =>
    obtain ⟨before', behind', hmarked, hlt | ⟨hversion, rfl, rfl⟩⟩ :=
      h.marked.doneDirectory c fileName success
    · exact ⟨before', behind', hmarked, h.shows.deleted hlt⟩
    · exact ⟨_, _, hmarked, h.shows.proceeds ⟨hmarked, hversion, rfl, Nat.le_refl _⟩⟩
  | doneFile dones merging merged =>
    have hsame : SameFiles s.op (FileList.step c address s (.doneFile dones merging merged)).op :=
      ⟨rfl, rfl, rfl, rfl⟩
    have hp := h.marked.stays hsame
    exact ⟨before, behind, hp.marked, h.shows.proceeds hp⟩
  | updateFileList =>
    refine ⟨before, behind, h.marked, fun _ => Int.le_refl _, fun _ _ => ?_⟩
    refine ⟨before.map (·.fileName), [], behind.map (·.fileName), by simp, by simp, ?_⟩
    rw [nil_append, ← h.marked.fullCopy]
    exact (updateFileList_spec h.marked h.shows).1

theorem run_inv {s : Watched} (h : Inv address s before behind) (c : Collation)
    (actions : List Action) :
    ∃ before' behind', Inv address (run c address s actions) before' behind' := by
  induction actions generalizing s before behind with
  | nil => exact ⟨before, behind, h⟩
  | cons a actions ih =>
    obtain ⟨before', behind', h'⟩ := h.step c a
    exact ih h'

theorem start_inv (hother : display.lastParallelOperation ≠ some address) (side : Side)
    (rootPath : UnicodeString) (files : List CollectedFile) (targetDir : UnicodeString)
    (copyParam : CopyParam) (parallelFileSize : Int) :
    Inv address (start side rootPath files targetDir copyParam parallelFileSize display) []
      (files.map fun f => { f with state := .qfsQueued }) where
  marked := {
    single := ⟨rootPath, rfl⟩
    processed := nofun
    queued := by
      intro f hf
      obtain ⟨g, -, rfl⟩ := mem_map.mp hf
      rfl
    cursor := .inl ⟨rfl, rfl⟩ }
  shows := ⟨fun hself => absurd hself hother, fun hself => absurd hself hother⟩

/-- After any history of calls, a call of `UpdateFileList` leaves the shown list as a
full copy would, and reports a change exactly when it copied all or the list
changed. -/
theorem updateFileList_run (c : Collation) (address : Nat) (display : QueueFileList)
    (hother : display.lastParallelOperation ≠ some address) (side : Side) (rootPath : UnicodeString)
    (collected : List CollectedFile) (targetDir : UnicodeString) (copyParam : CopyParam)
    (parallelFileSize : Int) (actions : List Action) :
    let s := run c address
      (start side rootPath collected targetDir copyParam parallelFileSize display) actions
    (updateFileList address s.op s.display).2.list = FileList.fullCopy (files s.op) ∧
    ((updateFileList address s.op s.display).1 = true ↔ rebuilds address s.op s.display = true ∨
      (updateFileList address s.op s.display).2.list ≠ s.display.list) := by
  obtain ⟨before, behind, h⟩ := run_inv
    (start_inv hother side rootPath collected targetDir copyParam parallelFileSize) c actions
  exact updateFileList_spec h.marked h.shows

/-- One file, shown before it is taken and again when it was: the second call changes
its state and says so. -/
theorem updateFileList_run_sample :
    let s := run .ofDecEq 1 (start .osRemote (wstr "/r/") [⟨wstr "/r/f", none, false, true, .qfsQueued⟩]
      (wstr "C:") {} (-1) {}) [.updateFileList, .getNext ⟨fun _ name _ _ => name⟩ 1]
    (updateFileList 1 s.op s.display).2.list = FileList.fullCopy (files s.op) ∧
    ((updateFileList 1 s.op s.display).1 = true ↔ rebuilds 1 s.op s.display = true ∨
      (updateFileList 1 s.op s.display).2.list ≠ s.display.list) :=
  updateFileList_run .ofDecEq 1 {} (by decide) .osRemote (wstr "/r/") _ (wstr "C:") {} (-1) _

end NetBox.Parallel.FileList
