import Mathlib
import NetBox.Parallel.Operation

/-! # The parts of one big file

A single remote file is downloaded by several connections at once, each taking
the next part with `GetNext`. All calls run under the critical section, so the
calls of any number of clients are one sequence; the limit that decides the
size of a part is read anew by every call.
-/

namespace NetBox.Parallel.Parts
open Base.Text Lib.KeyMap Parallel.Operation
open Parallel.Operation.ParallelOperation

/-- One call of `GetNext`: who calls, and the limit it reads. -/
structure Call where
  terminal : Terminal
  limit : Int

/-- The part a call hands out, if it does. -/
def partOf : Except Error Handout → List CopyParam
  | .ok out => out.customCopyParam.toList
  | .error _ => []

def afterCalls (c : Collation) : ParallelOperation → List Call → ParallelOperation
  | s, [] => s
  | s, call :: calls => afterCalls c (s.getNext c call.terminal call.limit).2 calls

/-- The parts handed out by a sequence of calls, in order. -/
def partsHandedOut (c : Collation) : ParallelOperation → List Call → List CopyParam
  | _, [] => []
  | s, call :: calls =>
    partOf (s.getNext c call.terminal call.limit).1 ++
      partsHandedOut c (s.getNext c call.terminal call.limit).2 calls

variable {s : ParallelOperation} {rootDir name : UnicodeString} {size offset : Int}

theorem partsHandedOut_append (c : Collation) (s : ParallelOperation) (as bs : List Call) :
    partsHandedOut c s (as ++ bs) = partsHandedOut c s as ++ partsHandedOut c (afterCalls c s as) bs := by
  induction as generalizing s with
  | nil => rfl
  | cons a as ih => simp only [List.cons_append, partsHandedOut, afterCalls, ih, List.append_assoc]

/-- The operation that `CopyToLocal` starts for the file `rootDir/name`; the
collector lists a top-level file under its directory with a trailing slash. -/
def bigFile (rootDir name targetDir : UnicodeString) (object : Option Nat) (copyParam : CopyParam)
    (size : Int) : ParallelOperation :=
  init .osRemote
    [(rootDir ++ [slash], [{ fileName := rootDir ++ slash :: name, object, dir := false }])]
    targetDir copyParam size

/-! ## What one call does -/

/-- The file is not handed out to its end: the next part starts at `offset`. -/
structure Open (rootDir name : UnicodeString) (size : Int) (s : ParallelOperation)
    (offset : Int) : Prop where
  side : s.side = .osRemote
  files : ∃ file, s.fileList = [(rootDir ++ [slash], [file])] ∧
    file.fileName = rootDir ++ slash :: name ∧ file.dir = false
  listIndex : s.listIndex = 0
  index : s.index = 0
  mode : s.isParallelFileTransfer = true
  size : s.parallelFileSize = size
  offset : s.parallelFileOffset = offset

/-- The only list is used up. -/
def Closed (s : ParallelOperation) : Prop := s.fileList.length = 1 ∧ s.listIndex = 1

theorem bigFile_open (rootDir name targetDir : UnicodeString) (object : Option Nat)
    (copyParam : CopyParam) {size : Int} (h : 1 ≤ size) :
    Open rootDir name size (bigFile rootDir name targetDir object copyParam size) 0 :=
  ⟨rfl, ⟨_, rfl, rfl, rfl⟩, rfl, rfl, by simp [bigFile, init]; omega, rfl, rfl⟩

theorem getNext_closed (c : Collation) (t : Terminal) (limit : Int) (h : Closed s) :
    s.getNext c t limit = (.ok { result := -1 }, s.setProbablyEmpty) := by
  have hs : seekFiles (s.fileList.length - s.listIndex) s = (none, s) := by rw [h.1, h.2]; rfl
  simp only [getNext, hs]

theorem seekFiles_open (h : Open rootDir name size s offset) :
    ∃ file, seekFiles (s.fileList.length - s.listIndex) s =
        (some (rootDir ++ [slash], [file]), s) ∧ s.fileList = [(rootDir ++ [slash], [file])] ∧
      file.fileName = rootDir ++ slash :: name ∧ file.dir = false := by
  obtain ⟨file, hf, hn, hd⟩ := h.files
  refine ⟨file, ?_, hf, hn, hd⟩
  rw [hf, h.listIndex]
  simp [seekFiles, checkEnd, hf, h.listIndex, h.index]

/-- Where the file is first-level for the code and there is somewhere to put
it, a call hands out the next part. -/
theorem getNext_part (hn : slash ∉ name) (h : Open rootDir name size s offset)
    (ht : s.targetDir ≠ []) (hp : PlainDir rootDir) (c : Collation) (t : Terminal) (limit : Int) :
    ∃ file onlyName, onlyName = t.changeFileName s.copyParam name .osRemote true ∧
      s.fileList = [(rootDir ++ [slash], [file])] ∧
      file.fileName = rootDir ++ slash :: name ∧ file.dir = false ∧
      s.getNext c t limit = (.ok
          { fileName := file.fileName, object := file.object, targetDir := s.targetDir
            recursed := file.recursed, customCopyParam := some (s.nextPart limit onlyName) },
        (if s.cutsRest limit then (s.takePart limit onlyName).markProcessed [file]
          else s.takePart limit onlyName).setProbablyEmpty) := by
  obtain ⟨file, hs, hfl, hname, hdir⟩ := seekFiles_open h
  have hfirst : firstLevel c s.side (dirPath s.side file.fileName) (rootDir ++ [slash]) = true :=
    hname ▸ (firstLevel_iff hn h.side c).mpr hp
  have htd : s.targetDir.isEmpty = false := by simpa using ht
  refine ⟨file, s.onlyFileName t file true, ?_, hfl, hname, hdir, ?_⟩
  · simp [onlyFileName, h.mode, h.side, hname, unixExtractFileName_join rootDir hn]
  · simp only [getNext, hs, h.index, List.getElem?_cons_zero, hfirst, parentTarget, if_true, htd,
      Bool.false_eq_true, if_false, handOut, registerDirectory, hdir, h.mode]

/-- Where it is not, a call raises or does nothing. -/
theorem getNext_stuck (hn : slash ∉ name) (h : Open rootDir name size s offset)
    (hd : s.directories = []) (hp : ¬ (s.targetDir ≠ [] ∧ PlainDir rootDir)) (c : Collation)
    (t : Terminal) (limit : Int) :
    (∃ e, s.getNext c t limit = (.error e, s)) ∨
      s.targetDir = [] ∧ ∃ out, s.getNext c t limit = (.ok out, s.setProbablyEmpty) ∧
        out.customCopyParam = none ∧ out.fileName = rootDir ++ slash :: name ∧
        out.targetDir = s.targetDir := by
  obtain ⟨file, hs, hfl, hname, hdir⟩ := seekFiles_open h
  have hfirst := hname ▸ firstLevel_iff hn h.side c
  simp only [getNext, hs, h.index, List.getElem?_cons_zero, parentTarget, hd]
  by_cases hpl : PlainDir rootDir
  · have ht : s.targetDir = [] := by
      by_contra hne
      exact hp ⟨hne, hpl⟩
    simp only [hfirst.mpr hpl, if_true, ht, List.isEmpty_nil]
    exact .inr ⟨trivial, _, rfl, rfl, hname, rfl⟩
  · simp only [if_neg (fun hf => hpl (hfirst.mp hf)), find?_nil]
    exact .inl ⟨_, rfl⟩

/-- After a part the file is used up, or open from the end of the part on. -/
theorem getNext_open (hn : slash ∉ name) (h : Open rootDir name size s offset)
    (ht : s.targetDir ≠ []) (hp : PlainDir rootDir) (c : Collation) (t : Terminal) (limit : Int) :
    if s.cutsRest limit then Closed (s.getNext c t limit).2
    else Open rootDir name size (s.getNext c t limit).2 (offset + size.tdiv limit) := by
  obtain ⟨file, onlyName, -, hfl, hname, hdir, hr⟩ := getNext_part hn h ht hp c t limit
  rw [hr]
  by_cases hcut : s.cutsRest limit = true
  · simp only [hcut, if_true]
    simp [Closed, setProbablyEmpty, takePart, markProcessed, checkEnd, h.index, h.listIndex, hfl]
  · simp only [hcut, if_false, Bool.false_eq_true]
    exact ⟨h.side, ⟨file, hfl, hname, hdir⟩, h.listIndex, h.index, h.mode, h.size,
      by simp [setProbablyEmpty, takePart, hcut, h.offset, h.size]⟩

theorem getNext_targetDir (hn : slash ∉ name) (h : Open rootDir name size s offset)
    (ht : s.targetDir ≠ []) (hp : PlainDir rootDir) (c : Collation) (t : Terminal) (limit : Int) :
    (s.getNext c t limit).2.targetDir = s.targetDir := by
  obtain ⟨file, onlyName, -, -, -, -, hr⟩ := getNext_part hn h ht hp c t limit
  rw [hr]
  split <;> simp [setProbablyEmpty, takePart, markProcessed, checkEnd, h.index]

/-! ## A chain of parts to the end of the file -/

/-- The bytes of a part; a negative size means until the end of the file. -/
def extent (size : Int) (part : CopyParam) : Set Int :=
  Set.Ico part.partOffset (if part.partSize < 0 then size else part.partOffset + part.partSize)

/-- Parts from `offset` to the end of the file, cut under the given limits. -/
inductive Chain (size : Int) : Int → List Int → List CopyParam → Prop
  | last {offset limits part} : offset < size → part.partOffset = offset → part.partSize = -1 →
      Chain size offset limits [part]
  | cons {offset limit limits part parts} : part.partOffset = offset →
      part.partSize = size.tdiv limit → 1 ≤ size.tdiv limit → offset + size.tdiv limit < size →
      Chain size (offset + size.tdiv limit) limits parts →
      Chain size offset (limit :: limits) (part :: parts)

variable {size offset : Int} {limits : List Int} {parts : List CopyParam}

theorem Chain.head (h : Chain size offset limits parts) :
    ∃ part rest, parts = part :: rest ∧ part.partOffset = offset := by
  cases h with
  | last _ ho _ => exact ⟨_, _, rfl, ho⟩
  | cons ho _ _ _ _ => exact ⟨_, _, rfl, ho⟩

/-- A part with a size has the size its limit gives and ends where the next
part starts. -/
theorem Chain.sized (h : Chain size offset limits parts) :
    ∀ i (part : CopyParam), parts[i]? = some part → 0 ≤ part.partSize →
      (∃ limit, limits[i]? = some limit ∧ part.partSize = size.tdiv limit) ∧
      ∃ next, parts[i + 1]? = some next ∧ part.partOffset + part.partSize = next.partOffset := by
  induction h with
  | @last offset limits part _ _ hs =>
    intro i p hp hpos
    cases i with
    | zero =>
      simp only [List.getElem?_cons_zero, Option.some.injEq] at hp
      subst hp; omega
    | succ i => simp at hp
  | @cons offset limit limits part parts ho hs _ _ hc ih =>
    intro i p hp hpos
    cases i with
    | zero =>
      simp only [List.getElem?_cons_zero, Option.some.injEq] at hp
      subst hp
      obtain ⟨next, rest, rfl, hn⟩ := hc.head
      exact ⟨⟨limit, rfl, hs⟩, next, rfl, by rw [hn, ho, hs]⟩
    | succ i => exact ih i p hp hpos

/-- Exactly the last part has no size. -/
theorem Chain.unsized_iff (h : Chain size offset limits parts) :
    ∀ i part, parts[i]? = some part → (part.partSize = -1 ↔ i + 1 = parts.length) ∧
      (part.partSize = -1 ∨ 0 ≤ part.partSize) := by
  induction h with
  | last _ _ hs =>
    intro i p hp
    cases i with
    | zero =>
      simp only [List.getElem?_cons_zero, Option.some.injEq] at hp
      subst hp; simp [hs]
    | succ i => simp at hp
  | @cons offset limit limits part parts _ hs h1 _ hc ih =>
    intro i p hp
    cases i with
    | zero =>
      simp only [List.getElem?_cons_zero, Option.some.injEq] at hp
      subst hp
      obtain ⟨_, _, rfl, _⟩ := hc.head
      refine ⟨⟨fun h => by omega, fun h => by simp at h⟩, .inr (by omega)⟩
    | succ i =>
      obtain ⟨hi, hor⟩ := ih i p hp
      exact ⟨hi.trans (by simp), hor⟩

theorem Chain.nonempty (h : Chain size offset limits parts) :
    ∀ part ∈ parts, (extent size part).Nonempty := by
  induction h with
  | last h ho hs =>
    intro p hp
    rw [List.mem_singleton.mp hp]
    exact ⟨_, le_refl _, by rw [hs, ho]; simpa using h⟩
  | cons ho hs h1 _ _ ih =>
    intro p hp
    rcases List.mem_cons.mp hp with rfl | hp
    · exact ⟨_, le_refl _, by rw [if_neg (by omega)]; omega⟩
    · exact ih p hp

theorem Chain.union (h : Chain size offset limits parts) :
    (⋃ part ∈ parts, extent size part) = Set.Ico offset size := by
  induction h with
  | last h ho hs => simp [extent, ho, hs]
  | @cons offset limit limits part parts ho hs h1 h2 hc ih =>
    have he : extent size part = Set.Ico offset (offset + size.tdiv limit) := by
      simp only [extent, ho, hs]
      rw [if_neg (by omega)]
    simp only [List.mem_cons, Set.iUnion_iUnion_eq_or_left, ih, he]
    exact Set.Ico_union_Ico_eq_Ico (by omega) (by omega)

theorem Chain.disjoint (h : Chain size offset limits parts) :
    parts.Pairwise fun p q => Disjoint (extent size p) (extent size q) := by
  induction h with
  | last _ _ _ => simp
  | @cons offset limit limits part parts ho hs h1 h2 hc ih =>
    refine List.pairwise_cons.mpr ⟨fun q hq => ?_, ih⟩
    apply Set.disjoint_left.mpr
    intro x hx hxq
    have hrest : x ∈ Set.Ico (offset + size.tdiv limit) size :=
      hc.union ▸ Set.mem_biUnion hq hxq
    simp only [extent, ho, hs] at hx
    rw [if_neg (by omega)] at hx
    exact absurd hx.2 (by have := hrest.1; omega)

/-! ## A whole run of calls -/

theorem tdiv_pos_of_le {size limit : Int} (h1 : 1 ≤ limit) (h2 : limit ≤ size) :
    1 ≤ size.tdiv limit := by
  rw [Int.tdiv_eq_ediv_of_nonneg (by omega)]
  exact (Int.le_ediv_iff_mul_le (by omega)).mpr (by omega)

theorem parts_closed (c : Collation) (calls : List Call) (h : Closed s) :
    partsHandedOut c s calls = [] := by
  induction calls generalizing s with
  | nil => rfl
  | cons call calls ih =>
    rw [partsHandedOut, getNext_closed c _ _ h]
    exact ih h

theorem afterCalls_closed (c : Collation) (calls : List Call) (h : Closed s) :
    Closed (afterCalls c s calls) := by
  induction calls generalizing s with
  | nil => exact h
  | cons call calls ih =>
    rw [afterCalls, getNext_closed c _ _ h]
    exact ih h

/-- Every call moves the offset on by at least one byte, so as many calls as
there are bytes left take the file to its end. -/
theorem parts_chain (c : Collation) (hn : slash ∉ name) (hp : PlainDir rootDir) (calls : List Call)
    (hl : ∀ call ∈ calls, 1 ≤ call.limit ∧ call.limit ≤ size) (h : Open rootDir name size s offset)
    (ht : s.targetDir ≠ []) (hlt : offset < size) (hlen : size - offset ≤ calls.length) :
    Chain size offset (calls.map Call.limit) (partsHandedOut c s calls) ∧
      Closed (afterCalls c s calls) := by
  induction calls generalizing s offset with
  | nil => simp only [List.length_nil] at hlen; omega
  | cons call calls ih =>
    obtain ⟨_, onlyName, -, -, -, -, hr⟩ := getNext_part hn h ht hp c call.terminal call.limit
    have hnext := getNext_open hn h ht hp c call.terminal call.limit
    have htd := getNext_targetDir hn h ht hp c call.terminal call.limit
    have hpart : partOf (s.getNext c call.terminal call.limit).1 = [s.nextPart call.limit onlyName] := by
      rw [hr]; rfl
    have ho : (s.nextPart call.limit onlyName).partOffset = offset := h.offset
    have hs : (s.nextPart call.limit onlyName).partSize =
        if s.cutsRest call.limit then -1 else size.tdiv call.limit := by simp only [nextPart, h.size]
    have h1 := tdiv_pos_of_le (hl call (by simp)).1 (hl call (by simp)).2
    simp only [partsHandedOut, afterCalls, hpart, List.map_cons, List.singleton_append]
    by_cases hr : s.cutsRest call.limit = true
    · rw [if_pos hr] at hs hnext
      rw [parts_closed c calls hnext]
      exact ⟨.last hlt ho hs, afterCalls_closed c calls hnext⟩
    · rw [if_neg hr] at hs hnext
      have hlt' : offset + size.tdiv call.limit < size := by
        simp only [cutsRest, h.size, h.offset, Bool.or_eq_true, decide_eq_true_eq, not_or] at hr
        omega
      obtain ⟨hchain, hclosed⟩ := ih (fun a ha => hl a (by simp [ha])) hnext (htd ▸ ht) hlt'
        (by simp only [List.length_cons] at hlen; omega)
      exact ⟨.cons ho hs h1 hlt' hchain, hclosed⟩

theorem parts_stuck (c : Collation) (hn : slash ∉ name) (calls : List Call)
    (h : Open rootDir name size s offset) (hd : s.directories = [])
    (hp : ¬ (s.targetDir ≠ [] ∧ PlainDir rootDir)) : partsHandedOut c s calls = [] := by
  induction calls generalizing s with
  | nil => rfl
  | cons call calls ih =>
    rcases getNext_stuck hn h hd hp c call.terminal call.limit with ⟨e, hr⟩ | ⟨_, out, hr, hout⟩
    · rw [partsHandedOut, hr]
      exact ih h hd hp
    · rw [partsHandedOut, hr, partOf, hout.1]
      exact ih ⟨h.side, h.files, h.listIndex, h.index, h.mode, h.size, h.offset⟩ hd hp

/-- How a file is to be cut: `parts` is the whole list, the `i`-th of them
handed out under the limit `limit i`. -/
structure Cut (size : Int) (limit : Nat → Int) (parts : List CopyParam) : Prop where
  start : parts.head?.map CopyParam.partOffset = some 0
  sized : ∀ i (part : CopyParam), parts[i]? = some part → 0 ≤ part.partSize →
    part.partSize = size.tdiv (limit i) ∧
    ∃ next, parts[i + 1]? = some next ∧ part.partOffset + part.partSize = next.partOffset
  unsized : ∀ i (part : CopyParam), parts[i]? = some part →
    (part.partSize = -1 ↔ i + 1 = parts.length) ∧ (part.partSize = -1 ∨ 0 ≤ part.partSize)
  nonempty : ∀ part ∈ parts, (extent size part).Nonempty
  disjoint : parts.Pairwise fun p q => Disjoint (extent size p) (extent size q)
  union : (⋃ part ∈ parts, extent size part) = Set.Ico 0 size

/-- `parts n` is what the first `n` calls hand out: the beginning of a cut of
the file, and all of it after as many calls as the file has bytes. -/
def CutsFile (size : Int) (limit : Nat → Int) (parts : Nat → List CopyParam) : Prop :=
  ∃ all, (∀ n, parts n <+: all) ∧ (∀ n : Nat, size ≤ n → parts n = all) ∧ Cut size limit all

def firstCalls (calls : Nat → Call) (n : Nat) : List Call := (List.range n).map calls

theorem firstCalls_add (calls : Nat → Call) (n k : Nat) :
    firstCalls calls (n + k) = firstCalls calls n ++ firstCalls (fun i => calls (n + i)) k := by
  simp [firstCalls, List.range_add]

theorem Chain.cut {calls : Nat → Call} {n : Nat}
    (h : Chain size 0 ((firstCalls calls n).map Call.limit) parts) :
    Cut size (fun i => (calls i).limit) parts where
  start := by
    obtain ⟨part, rest, rfl, ho⟩ := h.head
    simp [ho]
  sized := by
    intro i part hp hpos
    obtain ⟨⟨limit, hl, hs⟩, hnext⟩ := h.sized i part hp hpos
    have hi : limit = (calls i).limit := by
      obtain ⟨call, hc, rfl⟩ := List.getElem?_map .. ▸ hl |> Option.map_eq_some_iff.mp
      obtain ⟨k, hk, rfl⟩ := List.getElem?_map .. ▸ hc |> Option.map_eq_some_iff.mp
      have hk' := List.getElem?_eq_some_iff.mp hk
      simp only [List.getElem_range] at hk'
      rw [hk'.2]
    exact ⟨hi ▸ hs, hnext⟩
  unsized := h.unsized_iff
  nonempty := h.nonempty
  disjoint := h.disjoint
  union := h.union

/-- The parts of a big file are a cut of it for every sequence of calls and
limits, exactly when there is a target directory and the code recognises the
directory of the file: its path is not empty (the file is not right below `/`)
and does not end with a separator. Elsewhere no part is ever handed out. -/
theorem parts_cutsFile_iff (c : Collation) {rootDir name targetDir : UnicodeString}
    (hn : slash ∉ name) (object : Option Nat) (copyParam : CopyParam) {size : Int} (hsize : 1 ≤ size)
    (calls : Nat → Call) (hl : ∀ n, 1 ≤ (calls n).limit ∧ (calls n).limit ≤ size) :
    CutsFile size (fun n => (calls n).limit) (fun n =>
        partsHandedOut c (bigFile rootDir name targetDir object copyParam size) (firstCalls calls n))
      ↔ targetDir ≠ [] ∧ PlainDir rootDir := by
  have hopen := bigFile_open rootDir name targetDir object copyParam hsize
  constructor
  · rintro ⟨all, -, hall, hcut⟩
    by_contra hp
    have hnil : all = [] := (hall size.toNat (by omega)).symm.trans (parts_stuck c hn _ hopen rfl hp)
    have := hcut.start
    simp [hnil] at this
  · rintro ⟨ht, hp⟩
    have hmem : ∀ n, ∀ call ∈ firstCalls calls n, 1 ≤ call.limit ∧ call.limit ≤ size := by
      intro n call hc
      obtain ⟨i, -, rfl⟩ := List.mem_map.mp hc
      exact hl i
    obtain ⟨hchain, hclosed⟩ := parts_chain c hn hp (firstCalls calls size.toNat) (hmem _) hopen ht
      (by omega) (by simp [firstCalls])
    have hall : ∀ n : Nat, size ≤ n → partsHandedOut c
        (bigFile rootDir name targetDir object copyParam size) (firstCalls calls n) =
        partsHandedOut c (bigFile rootDir name targetDir object copyParam size)
          (firstCalls calls size.toNat) := by
      intro n hle
      obtain ⟨k, rfl⟩ : ∃ k, n = size.toNat + k := ⟨n - size.toNat, by omega⟩
      rw [firstCalls_add, partsHandedOut_append, parts_closed c _ hclosed, List.append_nil]
    refine ⟨_, fun n => ?_, hall, hchain.cut⟩
    by_cases hle : size ≤ n
    · exact hall n hle ▸ List.prefix_refl _
    · obtain ⟨k, hk⟩ : ∃ k, size.toNat = n + k := ⟨size.toNat - n, by omega⟩
      rw [hk, firstCalls_add, partsHandedOut_append]
      exact List.prefix_append _ _

/-- The terminal of the runs below: it leaves names as they are. -/
def plainTerminal : Terminal := ⟨fun _ name _ _ => name⟩

theorem parts_cutsFile_iff_sample :
    CutsFile 10 (fun _ => 3) (fun n => partsHandedOut .ofDecEq
        (bigFile (wstr "/home") (wstr "f") (wstr "C:\\d") none {} 10)
        (firstCalls (fun _ => ⟨plainTerminal, 3⟩) n)) ↔
      wstr "C:\\d" ≠ [] ∧ PlainDir (wstr "/home") :=
  parts_cutsFile_iff .ofDecEq (by decide) none {} (by decide) (fun _ => ⟨plainTerminal, 3⟩)
    (fun _ => by decide)

/-- The file `/f`: its directory loses the only slash it has and is not
recognised as the root of the list. -/
theorem parts_root_not_cutsFile :
    ¬ CutsFile 10 (fun _ => 2) (fun n => partsHandedOut .ofDecEq
        (bigFile [] (wstr "f") (wstr "C:\\d") none {} 10)
        (firstCalls (fun _ => ⟨plainTerminal, 2⟩) n)) := by
  rintro ⟨all, -, hall, hcut⟩
  have hnil : all = [] := (hall 10 (by decide)).symm.trans (by decide +kernel)
  have := hcut.start
  simp [hnil] at this

end NetBox.Parallel.Parts
