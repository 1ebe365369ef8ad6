import NetBox.Parallel.Listing
import NetBox.Lib.Run
import Mathlib.Data.List.Perm.Basic

/-! # Serving a collected list

Clients take the entries of a list one by one and report each when they are
done with it. An entry is handed out only when its directory was reported; a
directory that failed takes what lies below it off the list. Every call runs
under the critical section, so any number of clients is one sequence of calls
in which any entry that is handed out and not reported can be reported next.
-/
namespace NetBox.Parallel.Serving
open Base.Text Lib.KeyMap Lib.Cursor Lib.Run List
open Parallel.Operation Parallel.Operation.ParallelOperation Parallel.Listing

/-- The operation with its history: entries handed out in order, those of them
not reported yet, and the reports with their success. -/
structure Transfer where
  op : ParallelOperation
  handed : List CollectedFile := []
  outstanding : List CollectedFile := []
  reported : List (CollectedFile × Bool) := []

inductive Action
  | getNext (t : Terminal) (limit : Int)
  | done (file : CollectedFile) (success : Bool)

def Handout.file (out : Handout) : CollectedFile :=
  { fileName := out.fileName, object := out.object, dir := out.dir, recursed := out.recursed }

namespace Transfer

def getNext (c : Collation) (s : Transfer) (t : Terminal) (limit : Int) : Transfer :=
  match s.op.getNext c t limit with
  | (.error _, op) => { s with op }
  | (.ok out, op) =>
    if 0 < out.result then
      { s with
        op
        handed := s.handed ++ [Handout.file out]
        outstanding := s.outstanding ++ [Handout.file out] }
    else { s with op }

/-- `TParallelOperation::Done`, which does nothing for a file of a list. -/
def done (c : Collation) (s : Transfer) (file : CollectedFile) (success : Bool) : Transfer :=
  { s with
    op := if file.dir then s.op.doneDirectory c file.fileName success else s.op
    outstanding := s.outstanding.erase file
    reported := s.reported ++ [(file, success)] }

end Transfer

def step (c : Collation) (s : Transfer) : Action → Option Transfer
  | .getNext t limit => some (s.getNext c t limit)
  | .done file success => if file ∈ s.outstanding then some (s.done c file success) else none

/-- The transfer of a list, as `CopyToLocal` or `CopyToRemote` starts it. -/
def start (side : Side) (rootDir : UnicodeString) (files : List CollectedFile)
    (targetDir : UnicodeString) (copyParam : CopyParam) : Transfer :=
  { op := init side [(rootDir ++ [separator side], files)] targetDir copyParam (-1) }

/-- An entry as it was collected, whether handed out or not. -/
def queued (file : CollectedFile) : CollectedFile := { file with state := .qfsQueued }

/-- An entry stays on the list unless a directory above it was reported as failed. -/
def keeps (side : Side) (reported : List (CollectedFile × Bool)) (file : CollectedFile) : Bool :=
  !reported.any fun r => !r.2 && r.1.dir && below side r.1.fileName file.fileName

/-- The code finds its way in the list: entries right below the root are
recognised, no others are, and a directory with entries is reported under the
key it is stored under. -/
structure Regular (c : Collation) (side : Side) (rootDir : UnicodeString)
    (files : List CollectedFile) : Prop where
  top : ∀ e ∈ files, ChildOf side rootDir e.fileName →
    firstLevel c side (dirPath side e.fileName) (rootDir ++ [separator side]) = true
  nested : ∀ d ∈ files, d.dir = true → ∀ e ∈ files, ChildOf side d.fileName e.fileName →
    firstLevel c side (dirPath side e.fileName) (rootDir ++ [separator side]) = false ∧
      c.keys.same (excludeTrailingBackslash d.fileName) d.fileName = true

/-- No other directory listed before an entry compares equal to its directory. -/
def Apart (c : Collation) (side : Side) (files : List CollectedFile) : Prop :=
  ∀ (k : Nat) (e : CollectedFile), files[k]? = some e →
    ∀ d ∈ files.take k, d.dir = true → ChildOf side d.fileName e.fileName →
      ∀ q ∈ files.take k, q.dir = true → c.keys.same q.fileName d.fileName = true →
        q.fileName = d.fileName

/-- A directory whose name compares equal to `name`. -/
def alike (c : Collation) (name : UnicodeString) (q : CollectedFile) : Bool :=
  q.dir && c.keys.same q.fileName name

/-- No other directory of the list compares equal to one that has entries. -/
def Single (c : Collation) (side : Side) (files : List CollectedFile) : Prop :=
  ∀ d ∈ files, d.dir = true → ∀ e ∈ files, ChildOf side d.fileName e.fileName →
    files.countP (alike c d.fileName) ≤ 1

/-- Remote lists whose directories have no separator at their end are regular. -/
theorem regular_of_plain (c : Collation) {rootDir : UnicodeString} {files : List CollectedFile}
    (hl : Collected .osRemote rootDir files) (hroot : PlainDir rootDir)
    (hdirs : ∀ d ∈ files, d.dir = true → PlainDir d.fileName) : Regular c .osRemote rootDir files where
  top := by
    intro e _ ⟨name, ⟨_, hb⟩, he⟩
    have hn : slash ∉ name := fun hm => hb slash hm (by simp [separators])
    rw [he]
    exact (firstLevel_iff hn rfl c).mpr hroot
  nested := by
    intro d hd hdir e _ hc
    have hplain := hdirs d hd hdir
    obtain ⟨k, hk⟩ := mem_iff_getElem?.mp hd
    have hlen := hl.length_lt k d hk
    have hpath : dirPath .osRemote e.fileName = d.fileName := by
      rw [hc.dirPath hplain.1]
      exact hplain.exclude
    rw [hpath, hplain.exclude]
    refine ⟨?_, c.keys.same_refl _⟩
    simp only [firstLevel, unixSamePath, separator, hplain.include, include_append_slash,
      beq_eq_false_iff_ne, ne_eq]
    intro he
    have := congrArg List.length he
    simp only [length_append, length_singleton] at this
    omega

/-! ## One call of `GetNext` -/

variable {c : Collation} {op : ParallelOperation} {root : UnicodeString} {files : List CollectedFile}
  {f : CollectedFile}

theorem getNext_end (hl : op.fileList = [(root, files)])
    (hc : op.listIndex = 1 ∨ op.listIndex = 0 ∧ op.index = files.length) (t : Terminal) (limit : Int) :
    ∃ i b, op.getNext c t limit =
      (.ok { result := -1 }, { op with listIndex := 1, index := i, probablyEmpty := b }) := by
  rcases hc with h1 | ⟨h0, hi⟩
  · have hs : seekFiles (op.fileList.length - op.listIndex) op = (none, op) := by rw [hl, h1]; rfl
    simp only [getNext, hs, setProbablyEmpty]
    exact ⟨op.index, _, by rw [← h1]⟩
  · have hs : seekFiles (op.fileList.length - op.listIndex) op =
        (none, { op with listIndex := 1, index := 0 }) := by
      simp [hl, h0, seekFiles, checkEnd, hi]
    simp only [getNext, hs, setProbablyEmpty]
    exact ⟨0, _, rfl⟩

/-- What is reported of an entry, whether it is handed out or has to wait. -/
def handout (f : CollectedFile) (result : Int) (targetDir : UnicodeString) : Handout :=
  { result, fileName := f.fileName, object := f.object, targetDir, dir := f.dir
    recursed := f.recursed }

theorem getNext_entry (hl : op.fileList = [(root, files)]) (h0 : op.listIndex = 0)
    (hf : files[op.index]? = some f) (hm : op.isParallelFileTransfer = false) (t : Terminal)
    (limit : Int) :
    op.getNext c t limit =
      match op.parentTarget c (firstLevel c op.side (dirPath op.side f.fileName) root)
          (dirPath op.side f.fileName) with
      | .error e => (.error e, op)
      | .ok (result, targetDir) =>
        (.ok (handout f result targetDir), if targetDir.isEmpty then op.setProbablyEmpty else
          ((op.registerDirectory c f targetDir (op.onlyFileName t f
            (firstLevel c op.side (dirPath op.side f.fileName) root))).markProcessed
              files).setProbablyEmpty) := by
  have hlt := (List.getElem?_eq_some_iff.mp hf).1
  have hs : seekFiles (op.fileList.length - op.listIndex) op = (some (root, files), op) := by
    simp [hl, h0, seekFiles, checkEnd, Nat.not_le.mpr hlt]
  have hreg : ∀ d n, (op.registerDirectory c f d n).isParallelFileTransfer = false := by
    intro d n
    unfold registerDirectory
    split <;> exact hm
  simp only [getNext, hs, hf]
  cases op.parentTarget c (firstLevel c op.side (dirPath op.side f.fileName) root)
      (dirPath op.side f.fileName) with
  | error e => rfl
  | ok r =>
    obtain ⟨result, targetDir⟩ := r
    by_cases ht : targetDir.isEmpty = true
    · simp only [ht, if_true]; rfl
    · simp only [ht, handOut, hreg, Bool.false_eq_true, if_false]; rfl

/-- What handing out the entry at the cursor leaves. -/
structure HandedOut (c : Collation) (op op' : ParallelOperation) (root : UnicodeString)
    (files : List CollectedFile) (f : CollectedFile) : Prop where
  side : op'.side = op.side
  mode : op'.isParallelFileTransfer = op.isParallelFileTransfer
  target : op'.targetDir = op.targetDir
  list : ∃ files', op'.fileList = [(root, files')] ∧ files'.map queued = files.map queued
  cursor : (op'.listIndex = 0 ∧ op'.index = op.index + 1) ∨
    (op'.listIndex = 1 ∧ files.length ≤ op.index + 1)
  directories : f.dir = false ∧ op'.directories = op.directories ∨
    f.dir = true ∧ ∃ data : DirectoryData, data.oppositePath ≠ [] ∧ data.fileExists = false ∧
      op'.directories = insert c.keys op.directories (excludeTrailingBackslash f.fileName) data

theorem combinePaths_ne_nil (a b : UnicodeString) : combinePaths a b ≠ [] := by
  have h : ∀ x, includeTrailingBackslash x ≠ [] := by
    intro x hx
    unfold includeTrailingBackslash at hx
    split at hx
    · rename_i he
      rw [hx] at he
      simp [endsIn] at he
    · simp at hx
  simp only [combinePaths, ne_eq, append_eq_nil_iff, not_and]
  exact fun he => absurd he (h _)

theorem unixCombinePaths_ne_nil {a : UnicodeString} (ha : a ≠ []) (b : UnicodeString) :
    unixCombinePaths a b ≠ [] := by
  unfold unixCombinePaths unixIncludeTrailingBackslash
  split <;> simp [ha]

theorem map_queued_modify (files : List CollectedFile) (i : Nat) :
    (files.modify i fun f => { f with state := .qfsProcessed }).map queued = files.map queued := by
  apply ext_getElem?
  intro j
  rw [getElem?_map, getElem?_modify, getElem?_map]
  cases files[j]? with
  | none => rfl
  | some f => by_cases h : i = j <;> simp [h, queued]

theorem handedOut (hl : op.fileList = [(root, files)]) (h0 : op.listIndex = 0)
    {targetDir : UnicodeString} (ht : targetDir ≠ []) (name : UnicodeString) :
    HandedOut c op (((op.registerDirectory c f targetDir name).markProcessed
      files).setProbablyEmpty) root files f := by
  have hreg : ∃ dirs, op.registerDirectory c f targetDir name = { op with directories := dirs } ∧
      (f.dir = false ∧ dirs = op.directories ∨ f.dir = true ∧ ∃ data : DirectoryData,
        data.oppositePath ≠ [] ∧ data.fileExists = false ∧
        dirs = insert c.keys op.directories (excludeTrailingBackslash f.fileName) data) := by
    unfold registerDirectory
    by_cases hd : f.dir = true
    · rw [if_pos hd]
      refine ⟨_, rfl, .inr ⟨hd, _, ?_, rfl, rfl⟩⟩
      cases op.side with
      | osLocal => exact unixCombinePaths_ne_nil ht name
      | osRemote => exact combinePaths_ne_nil _ _
    · rw [if_neg hd]
      exact ⟨op.directories, rfl, .inl ⟨by simpa using hd, rfl⟩⟩
  obtain ⟨dirs, hr, hdirs⟩ := hreg
  rw [hr]
  have hfiles := map_queued_modify files op.index
  simp only [markProcessed, checkEnd, setProbablyEmpty, h0, hl]
  by_cases hlen : files.length ≤ op.index + 1
  · simp only [hlen, if_true]
    exact ⟨rfl, rfl, rfl, ⟨_, rfl, hfiles⟩, .inr ⟨rfl, hlen⟩, hdirs⟩
  · simp only [hlen, if_false]
    exact ⟨rfl, rfl, rfl, ⟨_, rfl, hfiles⟩, .inl ⟨rfl, rfl⟩, hdirs⟩

/-! ## What holds in every state -/

/-- A directory that holds `path` was reported as created. -/
def created (side : Side) (reported : List (CollectedFile × Bool)) (path : UnicodeString) : Prop :=
  ∃ d, (d, true) ∈ reported ∧ d.dir = true ∧ ChildOf side d.fileName path

/-- Of the entries `l` that no failure has taken away `A` was handed out and
`B` was not. -/
structure Serves (c : Collation) (side : Side) (rootDir : UnicodeString) (l : List CollectedFile)
    (s : Transfer) (files A B : List CollectedFile) : Prop where
  onSide : s.op.side = side
  mode : s.op.isParallelFileTransfer = false
  target : s.op.targetDir ≠ []
  list : s.op.fileList = [(rootDir ++ [separator side], files)]
  split : l.filter (keeps side s.reported) = A ++ B
  onList : files.map queued = (A ++ B).map queued
  handed : s.handed = A.map queued
  cursor : (s.op.listIndex = 0 ∧ s.op.index = A.length) ∨ (s.op.listIndex = 1 ∧ B = [])
  account : s.handed.Perm (s.outstanding ++ s.reported.map Prod.fst)
  parents : ∀ h ∈ s.handed, ChildOf side rootDir h.fileName ∨ created side s.reported h.fileName
  opposite : ∀ x ∈ s.op.directories, x.2.oppositePath ≠ []
  known : ∀ e ∈ B, ∀ d ∈ s.handed, d.dir = true → ChildOf side d.fileName e.fileName →
    (find? c.keys s.op.directories (dirPath side e.fileName)).isSome
  marks : ∀ e ∈ B, (∃ d ∈ l, d.dir = true ∧ ChildOf side d.fileName e.fileName) →
    ∀ data, find? c.keys s.op.directories (dirPath side e.fileName) = some data →
      (data.fileExists = true ↔ created side s.reported e.fileName)

variable {side : Side} {rootDir : UnicodeString} {l A B B' : List CollectedFile} {s : Transfer}
  {e : CollectedFile} {reported : List (CollectedFile × Bool)}

theorem keeps_iff : keeps side reported e = true ↔
    ∀ d, (d, false) ∈ reported → d.dir = true → below side d.fileName e.fileName = false := by
  simp only [keeps, Bool.not_eq_true', any_eq_false, Bool.and_eq_true, Prod.forall, not_and,
    Bool.not_eq_true]
  constructor
  · intro h d hd hdir
    exact h d false hd ⟨rfl, hdir⟩
  · intro h d b hd ⟨hb, hdir⟩
    exact h d (hb ▸ hd) hdir

theorem keeps_of_below {x : CollectedFile} (h : keeps side reported x = true)
    (hb : below side e.fileName x.fileName = true) : keeps side reported e = true := by
  rw [keeps_iff] at *
  intro d hd hdir
  rw [Bool.eq_false_iff]
  intro hde
  exact absurd (below_trans hde hb) (by rw [h d hd hdir]; simp)

theorem childOf_unique {a b path : UnicodeString} (h : ChildOf side a path)
    (h' : ChildOf side b path) : a = b := by
  rcases h'.below_parent h.below with he | hb
  · exact he
  · have h1 := (below_iff.mp hb).length_le
    rcases h.below_parent h'.below with he | hb'
    · exact he.symm
    · have h2 := (below_iff.mp hb').length_le
      simp only [length_append, length_singleton] at h1 h2
      omega

/-- Where an entry that is not handed out stands in the list: after all that
were handed out. -/
theorem Serves.located (h : Serves c side rootDir l s files A B) (he : e ∈ B) :
    ∃ k : Nat, l[k]? = some e ∧ ∀ q ∈ A, q ∈ l.take k := by
  obtain ⟨X, Y, rfl, hX, hY⟩ := filter_eq_append_iff.mp h.split
  obtain ⟨i, hi⟩ := mem_iff_getElem?.mp (mem_of_mem_filter (hY ▸ he))
  refine ⟨X.length + i, by rw [getElem?_append_right (by omega)]; simpa using hi, ?_⟩
  intro q hq
  have hqX : q ∈ X := mem_of_mem_filter (hX ▸ hq)
  rw [take_append]
  exact mem_append_left _ (by rwa [take_of_length_le (by omega)])

/-- The directory of the next entry was handed out, unless that is the root. -/
theorem Serves.next_parent (h : Serves c side rootDir l s files A (e :: B))
    (hl : Collected side rootDir l) : e ∈ l ∧ (ChildOf side rootDir e.fileName ∨
      ∃ d ∈ A, d ∈ l ∧ d.dir = true ∧ ChildOf side d.fileName e.fileName) := by
  obtain ⟨X, Y, rfl, hX, hY⟩ := filter_eq_append_iff.mp h.split
  obtain ⟨Y₁, Y₂, rfl, hskip, hkeep, -⟩ := filter_eq_cons_iff.mp hY
  refine ⟨by simp, ?_⟩
  have hk : (X ++ (Y₁ ++ e :: Y₂))[X.length + Y₁.length]? = some e := by
    rw [← append_assoc, getElem?_append_right (by simp)]
    simp
  rcases hl _ e hk with hr | ⟨j, d, hj, hd, hdir, hc⟩
  · exact .inl hr
  · refine .inr ⟨d, ?_, mem_of_getElem? hd, hdir, hc⟩
    have hdk : keeps side s.reported d = true := keeps_of_below hkeep hc.below
    rw [← hX, mem_filter]
    refine ⟨?_, hdk⟩
    by_cases hjX : j < X.length
    · rw [getElem?_append_left hjX] at hd
      exact mem_of_getElem? hd
    · rw [getElem?_append_right (by omega), getElem?_append_left (by omega)] at hd
      exact absurd hdk (by simpa using hskip d (mem_of_getElem? hd))

theorem Serves.current (h : Serves c side rootDir l s files A (e :: B)) :
    s.op.listIndex = 0 ∧ ∃ f, files[s.op.index]? = some f ∧ queued f = queued e := by
  rcases h.cursor with ⟨h0, hi⟩ | ⟨-, hB⟩
  · refine ⟨h0, ?_⟩
    have hm : (files.map queued)[A.length]? = some (queued e) := by rw [h.onList]; simp
    rw [getElem?_map, Option.map_eq_some_iff] at hm
    rwa [hi]
  · cases hB

theorem Serves.kept (h : Serves c side rootDir l s files A B) (he : e ∈ A ++ B) :
    e ∈ l ∧ keeps side s.reported e = true := by
  rwa [← h.split, mem_filter] at he

theorem Serves.handed_of_reported (h : Serves c side rootDir l s files A B) {d : CollectedFile}
    {b : Bool} (hd : (d, b) ∈ s.reported) : d ∈ s.handed :=
  h.account.mem_iff.mpr (mem_append_right _ (mem_map_of_mem hd))

/-- An entry below a directory that failed is not on the list any more. -/
theorem Serves.not_failed (h : Serves c side rootDir l s files A B) (he : e ∈ A ++ B)
    {d : CollectedFile} (hd : d.dir = true) (hb : below side d.fileName e.fileName = true) :
    (d, false) ∉ s.reported := by
  intro hf
  have := keeps_iff.mp (h.kept he).2 d hf hd
  rw [hb] at this
  cases this

/-- Whether the next entry can be handed out, as the code finds out: its
directory is there, or somebody has yet to report it. -/
theorem Serves.parentTarget (h : Serves c side rootDir l s files A (e :: B))
    (hl : Collected side rootDir l) (hr : Regular c side rootDir l) :
    (∃ targetDir, targetDir ≠ [] ∧
      s.op.parentTarget c (firstLevel c side (dirPath side e.fileName) (rootDir ++ [separator side]))
        (dirPath side e.fileName) = .ok (1, targetDir) ∧
      (ChildOf side rootDir e.fileName ∨ created side s.reported e.fileName)) ∨
    (s.op.parentTarget c (firstLevel c side (dirPath side e.fileName) (rootDir ++ [separator side]))
        (dirPath side e.fileName) = .ok (0, []) ∧
      ∃ d ∈ s.outstanding, d.dir = true ∧ ChildOf side d.fileName e.fileName) := by
  obtain ⟨hel, htop | ⟨d, hdA, hdl, hdir, hc⟩⟩ := h.next_parent hl
  · rw [hr.top e hel htop]
    exact .inl ⟨s.op.targetDir, h.target, rfl, .inl htop⟩
  · rw [(hr.nested d hdl hdir e hel hc).1]
    have hhd : queued d ∈ s.handed := h.handed ▸ mem_map_of_mem hdA
    obtain ⟨data, hdata⟩ := Option.isSome_iff_exists.mp
      (h.known e (by simp) (queued d) hhd hdir hc)
    have hmark := h.marks e (by simp) ⟨d, hdl, hdir, hc⟩ data hdata
    obtain ⟨key, hmem⟩ := find?_mem c.keys hdata
    simp only [ParallelOperation.parentTarget, Bool.false_eq_true, if_false, hdata]
    by_cases hx : data.fileExists = true
    · rw [if_pos hx]
      exact .inl ⟨_, h.opposite _ hmem, rfl, .inr (hmark.mp hx)⟩
    · rw [if_neg hx]
      refine .inr ⟨rfl, queued d, ?_, hdir, hc⟩
      -- it was handed out, and no report of it fits
      rcases mem_append.mp (h.account.mem_iff.mp hhd) with ho | hrep
      · exact ho
      · obtain ⟨⟨d', b⟩, hb, hd'⟩ := mem_map.mp hrep
        cases hd'
        cases b with
        | true => exact absurd (hmark.mpr ⟨_, hb, hdir, hc⟩) hx
        | false => exact absurd hb (h.not_failed (by simp) hdir hc.below)

/-- A call that only moves to the end of the list, or waits. -/
theorem Serves.still (h : Serves c side rootDir l s files A B) {i j : Nat} (b : Bool)
    (hc : (i = 0 ∧ j = A.length) ∨ (i = 1 ∧ B = [])) :
    Serves c side rootDir l
      { s with op := { s.op with listIndex := i, index := j, probablyEmpty := b } } files A B :=
  ⟨h.onSide, h.mode, h.target, h.list, h.split, h.onList, h.handed, hc, h.account, h.parents,
    h.opposite, h.known, h.marks⟩

variable {op' : ParallelOperation}

/-- After handing out a directory the code finds what it found before, or the
directory it has just stored. -/
theorem HandedOut.find? (hg : HandedOut c op op' root files f) (x : UnicodeString)
    {data : DirectoryData} (h : Lib.KeyMap.find? c.keys op'.directories x = some data) :
    Lib.KeyMap.find? c.keys op.directories x = some data ∨
      Lib.KeyMap.find? c.keys op.directories x = none ∧ data.fileExists = false := by
  rcases hg.directories with ⟨-, hd⟩ | ⟨-, new, -, hnew, hd⟩
  · exact .inl (hd ▸ h)
  · rw [hd, find?_insert] at h
    cases hx : Lib.KeyMap.find? c.keys op.directories x with
    | some w => rw [hx] at h; exact .inl h
    | none =>
      rw [hx, Option.none_or] at h
      split at h
      · cases h; exact .inr ⟨rfl, hnew⟩
      · cases h

theorem HandedOut.isSome (hg : HandedOut c op op' root files f) (x : UnicodeString)
    (h : (Lib.KeyMap.find? c.keys op.directories x).isSome) :
    (Lib.KeyMap.find? c.keys op'.directories x).isSome := by
  rcases hg.directories with ⟨-, hd⟩ | ⟨-, new, -, -, hd⟩
  · rwa [hd]
  · rw [hd, find?_insert]
    simp [h]

theorem Serves.take (h : Serves c side rootDir l s files A (e :: B)) (hl : Collected side rootDir l)
    (hf : queued f = queued e) (hg : HandedOut c s.op op' (rootDir ++ [separator side]) files f)
    (hp : ChildOf side rootDir e.fileName ∨ created side s.reported e.fileName) :
    ∃ files', Serves c side rootDir l
      { s with
        op := op', handed := s.handed ++ [queued e], outstanding := s.outstanding ++ [queued e] }
      files' (A ++ [e]) B := by
  have hname : f.fileName = e.fileName := (congrArg CollectedFile.fileName hf :)
  have hdir : f.dir = e.dir := (congrArg CollectedFile.dir hf :)
  have hcur : s.op.listIndex = 0 ∧ s.op.index = A.length := by
    rcases h.cursor with hc | ⟨-, hB⟩
    · exact hc
    · cases hB
  have hlen : files.length = A.length + 1 + B.length := by
    have := congrArg List.length h.onList
    simp only [length_map, length_append, length_cons] at this
    omega
  obtain ⟨files', hlist, hmap⟩ := hg.list
  obtain ⟨dir, hed⟩ := hl.childOf (h.kept (e := e) (by simp)).1
  refine ⟨files', hg.side.trans h.onSide, hg.mode.trans h.mode, hg.target ▸ h.target, hlist, ?_, ?_,
    ?_, ?_, ?_, ?_, ?_, ?_, ?_⟩
  · simpa using h.split
  · rw [hmap, h.onList]; simp
  · simp [h.handed]
  · rcases hg.cursor with ⟨h0, hi⟩ | ⟨h1, hle⟩
    · exact .inl ⟨h0, by rw [hi, hcur.2]; simp⟩
    · refine .inr ⟨h1, length_eq_zero_iff.mp ?_⟩
      rw [hcur.2] at hle
      omega
  · have := h.account.append_right [queued e]
    refine this.trans ?_
    simp only [append_assoc]
    exact .append_left _ perm_append_comm
  · intro x hx
    rcases mem_append.mp hx with hx | hx
    · exact h.parents x hx
    · rw [mem_singleton.mp hx]; exact hp
  · intro x hx
    rcases hg.directories with ⟨-, hd⟩ | ⟨-, data, hdata, -, hd⟩
    · exact h.opposite x (hd ▸ hx)
    · rcases mem_insert c.keys (hd ▸ hx) with hx | rfl
      · exact h.opposite x hx
      · exact hdata
  · intro x hx d hd hddir hc
    rcases mem_append.mp hd with hd | hd
    · exact hg.isSome _ (h.known x (mem_cons_of_mem _ hx) d hd hddir hc)
    · obtain rfl := mem_singleton.mp hd
      rcases hg.directories with ⟨hfd, -⟩ | ⟨-, data, -, -, hdirs⟩
      · have : e.dir = true := hddir
        rw [hdir, this] at hfd
        cases hfd
      · have hkey : dirPath side x.fileName = excludeTrailingBackslash f.fileName := by
          rw [hname]; exact hed.dirPath_child hc
        simp [hdirs, find?_insert, hkey]
  · intro x hx hpar data hdata
    rcases hg.find? _ hdata with hold | ⟨hnone, hfalse⟩
    · exact h.marks x (mem_cons_of_mem _ hx) hpar data hold
    · -- a directory that was reported would have been found before
      constructor
      · intro he
        rw [hfalse] at he
        cases he
      intro ⟨d, hd, hddir, hc⟩
      have := h.known x (mem_cons_of_mem _ hx) d (h.handed_of_reported hd) hddir hc
      rw [hnone] at this
      cases this

/-- A call of `GetNext` never raises. It tells the end when nothing is left,
it waits for a directory that somebody has yet to report, or it hands out the
next entry. -/
theorem Serves.getNext_cases (h : Serves c side rootDir l s files A B) (hl : Collected side rootDir l)
    (hr : Regular c side rootDir l) (t : Terminal) (limit : Int) :
    ∃ out op', s.op.getNext c t limit = (.ok out, op') ∧
      ((B = [] ∧ out.result = -1 ∧ Serves c side rootDir l { s with op := op' } files A B) ∨
      ∃ e B', B = e :: B' ∧ (
        (out.result = 0 ∧ (∃ d ∈ s.outstanding, d.dir = true ∧ ChildOf side d.fileName e.fileName) ∧
          Serves c side rootDir l { s with op := op' } files A B) ∨
        (out.result = 1 ∧ Handout.file out = queued e ∧
          (ChildOf side rootDir e.fileName ∨ created side s.reported e.fileName) ∧
          ∃ files', Serves c side rootDir l
            { s with
              op := op', handed := s.handed ++ [queued e]
              outstanding := s.outstanding ++ [queued e] } files' (A ++ [e]) B'))) := by
  cases B with
  | nil =>
    have hend : s.op.listIndex = 1 ∨ s.op.listIndex = 0 ∧ s.op.index = files.length := by
      have hlen := congrArg List.length h.onList
      simp only [length_map, append_nil] at hlen
      rcases h.cursor with ⟨h0, hi⟩ | ⟨h1, -⟩
      · exact .inr ⟨h0, hi.trans hlen.symm⟩
      · exact .inl h1
    obtain ⟨i, b, hg⟩ := getNext_end (c := c) h.list hend t limit
    exact ⟨_, _, hg, .inl ⟨rfl, rfl, h.still b (.inr ⟨rfl, rfl⟩)⟩⟩
  | cons e B' =>
    obtain ⟨h0, f, hf, hq⟩ := h.current
    have hname : f.fileName = e.fileName := (congrArg CollectedFile.fileName hq :)
    have hg := getNext_entry (c := c) h.list h0 hf h.mode t limit
    rw [h.onSide, hname] at hg
    rcases h.parentTarget hl hr with ⟨targetDir, hne, hpt, hpar⟩ | ⟨hpt, hwait⟩
    · rw [hpt] at hg
      simp only [List.isEmpty_iff, hne, if_false] at hg
      obtain ⟨files', hs⟩ := h.take hl hq (handedOut h.list h0 hne _) hpar
      exact ⟨_, _, hg, .inr ⟨e, B', rfl, .inr ⟨rfl, hq, hpar, files', hs⟩⟩⟩
    · rw [hpt] at hg
      simp only [isEmpty_nil, if_true] at hg
      exact ⟨_, _, hg, .inr ⟨e, B', rfl, .inl ⟨rfl, hwait, h.still _ h.cursor⟩⟩⟩

theorem Serves.getNext (h : Serves c side rootDir l s files A B) (hl : Collected side rootDir l)
    (hr : Regular c side rootDir l) (t : Terminal) (limit : Int) :
    ∃ files' A' B', Serves c side rootDir l (s.getNext c t limit) files' A' B' := by
  obtain ⟨out, op', hg, ⟨-, hres, hs⟩ | ⟨e, B', -, ⟨hres, -, hs⟩ | ⟨hres, hfile, -, files', hs⟩⟩⟩ :=
    h.getNext_cases hl hr t limit
  · simp only [Transfer.getNext, hg, hres]
    exact ⟨files, A, B, hs⟩
  · simp only [Transfer.getNext, hg, hres]
    exact ⟨files, A, B, hs⟩
  · simp only [Transfer.getNext, hg, hres, hfile]
    exact ⟨files', A ++ [e], B', hs⟩

end NetBox.Parallel.Serving
