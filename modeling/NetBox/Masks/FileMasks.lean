import NetBox.Masks.CmpName
import NetBox.Base.PathResolution
import NetBox.Base.Replace

/-! # Masks of files and directories

The masks that `TFileMasks` keeps, and the matching of a file or directory against a list
of them. When a directory matches none, the directory that it is in is tried. The texts
of the masks are kept for the user only.
-/
namespace NetBox.Masks
open Base.Text Lib.Segments List

abbrev TDateTime := Int

inductive MaskKind
  | any
  | noExt
  | regular
deriving DecidableEq

inductive MaskBoundary
  | none
  | opened
  | closed
deriving DecidableEq

/-- `TFileMasks::TMask` -/
structure FileMask where
  fileNameMaskKind : MaskKind := .any
  fileNameMask : UnicodeString := []
  directoryMaskKind : MaskKind := .any
  remoteDirectoryMask : UnicodeString := []
  localDirectoryMask : UnicodeString := []
  highSizeMask : MaskBoundary := .none
  highSize : Int := 0
  lowSizeMask : MaskBoundary := .none
  lowSize : Int := 0
  highModificationMask : MaskBoundary := .none
  highModification : TDateTime := 0
  lowModificationMask : MaskBoundary := .none
  lowModification : TDateTime := 0
  maskStr : UnicodeString := []
  userStr : UnicodeString := []
deriving DecidableEq

structure MaskParams where
  size : Int
  modification : TDateTime

/-- A value is below the bound. What is not known is below none. -/
def MaskBoundary.high (boundary : MaskBoundary) (value : Option Int) (bound : Int) : Bool :=
  match boundary with
  | .none => true
  | .opened => value.any (· < bound)
  | .closed => value.any (· ≤ bound)

/-- A value is above the bound. -/
def MaskBoundary.low (boundary : MaskBoundary) (value : Option Int) (bound : Int) : Bool :=
  match boundary with
  | .none => true
  | .opened => value.any (bound < ·)
  | .closed => value.any (bound ≤ ·)

def isUnixRootPath (path : UnicodeString) : Bool := path.isEmpty || uptoNul path == [slash]

/-- `UnixExcludeTrailingBackslash` that has no regard to drives. -/
def simpleUnixExcludeTrailingBackslash (path : UnicodeString) : UnicodeString :=
  let result :=
    if isUnixRootPath path || !isDelimiter [slash] path path.length then path
    else path.dropLast
  if result.isEmpty then [slash] else result

/-- The directory that a path is in. -/
def parentPath (path : UnicodeString) : UnicodeString :=
  simpleUnixExcludeTrailingBackslash (unixExtractFilePath path)

/-! ## Every parent is a shorter path -/

theorem lastDelimiterFrom_cases (delimiters str : UnicodeString) (n : Nat) :
    lastDelimiterFrom delimiters str n = 0 ∨
      isDelimiter delimiters str (lastDelimiterFrom delimiters str n) = true := by
  induction n with
  | zero => exact .inl rfl
  | succ n ih =>
    rw [lastDelimiterFrom]
    split
    · exact .inr ‹_›
    · exact ih

/-- What is in front of a name is nothing or ends with a slash. -/
theorem unixExtractFilePath_cases (path : UnicodeString) :
    unixExtractFilePath path = [] ∨
      isDelimiter [slash] (unixExtractFilePath path) (unixExtractFilePath path).length = true := by
  rcases lastDelimiterFrom_cases [slash] path path.length with hzero | hat
  · exact .inl (by rw [unixExtractFilePath, lastDelimiter, hzero, take_zero])
  · by_cases hnil : unixExtractFilePath path = []
    · exact .inl hnil
    · refine .inr ?_
      rw [unixExtractFilePath, lastDelimiter] at hnil ⊢
      generalize lastDelimiterFrom [slash] path path.length = p at hat hnil ⊢
      have hp : p ≠ 0 := by rintro rfl; exact hnil take_zero
      have hle : p ≤ path.length := by
        by_contra hlt
        rw [isDelimiter, getElem?_eq_none (by omega)] at hat
        cases hat
      have hlast : (path.take p)[p - 1]? = path[p - 1]? := getElem?_take_of_lt (by omega)
      rw [length_take_of_le hle, isDelimiter, hlast]
      exact hat

/-- The length of a path, when there is one above it. -/
def pathDepth (path : UnicodeString) : Nat := if isUnixRootPath path then 0 else path.length

theorem pathDepth_le (path : UnicodeString) : pathDepth path ≤ path.length := by
  rw [pathDepth]
  split
  · exact Nat.zero_le _
  · exact Nat.le_refl _

theorem pathDepth_exclude {dir : UnicodeString}
    (h : dir = [] ∨ isDelimiter [slash] dir dir.length = true) :
    pathDepth (simpleUnixExcludeTrailingBackslash dir) = 0 ∨
      pathDepth (simpleUnixExcludeTrailingBackslash dir) < dir.length := by
  rcases h with rfl | hend
  · exact .inl rfl
  · have hne : dir ≠ [] := by rintro rfl; cases hend
    simp only [simpleUnixExcludeTrailingBackslash, hend, Bool.not_true, Bool.or_false]
    by_cases hroot : isUnixRootPath dir = true
    · rw [if_pos hroot, if_neg (by simpa using hne), pathDepth, if_pos hroot]
      exact .inl rfl
    · rw [if_neg hroot]
      split
      · exact .inl rfl
      · refine .inr (Nat.lt_of_le_of_lt (pathDepth_le _) ?_)
        have hpos : 0 < dir.length := length_pos_of_ne_nil hne
        rw [length_dropLast]
        omega

theorem pathDepth_parentPath {path : UnicodeString} (h : isUnixRootPath path = false) :
    pathDepth (parentPath path) < pathDepth path := by
  have hdepth : pathDepth path = path.length := by rw [pathDepth, h, if_neg Bool.false_ne_true]
  have hpos : 0 < path.length := by
    refine length_pos_of_ne_nil ?_
    rintro rfl
    cases h
  have hle : (unixExtractFilePath path).length ≤ path.length := length_take_le' _ _
  rw [hdepth, parentPath]
  rcases pathDepth_exclude (unixExtractFilePath_cases path) with hzero | hlt <;> omega

/-! ## Matching -/

variable (a : CaseApi)

def matchesMaskMask (kind : MaskKind) (mask str : UnicodeString) : Bool :=
  match kind with
  | .any => true
  | .noExt => posNul [dot] str == 0 || maskMatches a mask str
  | .regular => maskMatches a mask str

/-- The body of the loop of `MatchesMasks`. -/
def FileMask.isMatch (mask : FileMask) (fileName : UnicodeString) (isLocal : Bool)
    (path : UnicodeString) (params : Option MaskParams) : Bool :=
  matchesMaskMask a mask.directoryMaskKind
      (if isLocal then mask.localDirectoryMask else mask.remoteDirectoryMask) path &&
    matchesMaskMask a mask.fileNameMaskKind mask.fileNameMask fileName &&
    mask.highSizeMask.high (params.map (·.size)) mask.highSize &&
    mask.lowSizeMask.low (params.map (·.size)) mask.lowSize &&
    mask.highModificationMask.high (params.map (·.modification)) mask.highModification &&
    mask.lowModificationMask.low (params.map (·.modification)) mask.lowModification

def matchesMasks (fileName : UnicodeString) (isLocal directory : Bool) (path : UnicodeString)
    (params : Option MaskParams) (masks : List FileMask) (recurse : Bool) : Bool :=
  masks.any (·.isMatch a fileName isLocal path params) ||
    if _h : directory ∧ isUnixRootPath path = false ∧ recurse then
      matchesMasks (unixExtractFileName path) isLocal true (parentPath path) params masks recurse
    else false
termination_by pathDepth path
decreasing_by exact pathDepth_parentPath _h.2.1

/-- The call that `Matches` makes for a remote directory. -/
def matchesDirectory (path : UnicodeString) (params : Option MaskParams) (masks : List FileMask)
    (recurse : Bool) : Bool :=
  matchesMasks a (unixExtractFileName path) false true (parentPath path) params masks recurse

/-! ## Directories on the way -/

/-- A component is a name that a directory can hold. -/
structure IsEntry (c : Component) : Prop where
  ne_nil : c ≠ []
  slash_free : slash ∉ c
  nul_free : 0 ∉ c

def Entries (components : List Component) : Prop := ∀ c ∈ components, IsEntry c

variable {a} {front back : List Component} {c : Component}

theorem Entries.append (h : Entries (front ++ back)) : Entries front ∧ Entries back :=
  forall_mem_append.mp h

theorem Entries.last (h : Entries (front ++ [c])) : IsEntry c := h c (by simp)

theorem Entries.zero_not_mem (h : Entries front) : 0 ∉ started slash front := by
  rw [started, mem_flatMap]
  rintro ⟨name, hname, hzero⟩
  rcases mem_cons.mp hzero with heq | hmem
  · exact absurd heq (by decide)
  · exact (h name hname).nul_free hmem

theorem absolute_concat (front : List Component) (c : Component) :
    absolute (front ++ [c]) = started slash front ++ slash :: c := by
  rw [absolute, if_neg (by simp), started_append]
  simp

theorem unixExtractFileName_absolute (front : List Component) (h : slash ∉ c) :
    unixExtractFileName (absolute (front ++ [c])) = c := by
  rw [absolute_concat, unixExtractFileName_join _ h]

/-- More than one character without U+0000 is not the root. -/
theorem isUnixRootPath_eq_false {path : UnicodeString} (h : 0 ∉ path) (hlength : 1 < path.length) :
    isUnixRootPath path = false := by
  match path, hlength with
  | ch :: ch' :: path, _ => simp [isUnixRootPath, uptoNul_eq h]

theorem isUnixRootPath_absolute (h : Entries (front ++ [c])) :
    isUnixRootPath (absolute (front ++ [c])) = false := by
  refine isUnixRootPath_eq_false ?_ ?_
  · rw [absolute, if_neg (by simp)]
    exact h.zero_not_mem
  · have hlast : 0 < c.length := length_pos_of_ne_nil h.last.ne_nil
    rw [absolute_concat, length_append, length_cons]
    omega

theorem simpleExclude_pathText (h : Entries front) :
    simpleUnixExcludeTrailingBackslash (pathText front) = absolute front := by
  cases front with
  | nil => rfl
  | cons name rest =>
    have hfree : 0 ∉ pathText (name :: rest) := by
      rw [pathText, mem_append, not_or]
      exact ⟨h.zero_not_mem, by decide⟩
    have hroot : isUnixRootPath (pathText (name :: rest)) = false := by
      refine isUnixRootPath_eq_false hfree ?_
      rw [pathText, length_append, started_cons]
      simp
    have hend : isDelimiter [slash] (pathText (name :: rest))
        (pathText (name :: rest)).length = true := by
      rw [isDelimiter_length, endsIn, pathText, getLast?_concat]
      rfl
    have hdrop : (pathText (name :: rest)).dropLast = started slash (name :: rest) :=
      dropLast_concat
    simp only [simpleUnixExcludeTrailingBackslash, hroot, hend, hdrop, absolute]
    simp

theorem parentPath_absolute (h : Entries (front ++ [c])) :
    parentPath (absolute (front ++ [c])) = absolute front := by
  have hpath : unixExtractFilePath (absolute (front ++ [c])) = pathText front := by
    rw [absolute_concat, unixExtractFilePath, lastDelimiter_last _ h.last.slash_free, pathText]
    simp [take_append]
  rw [parentPath, hpath, simpleExclude_pathText h.append.1]

/-! ## A directory matches when one on its way does -/

variable {params : Option MaskParams} {masks : List FileMask}

/-- Without recursion only the entry itself is tried. -/
theorem matchesDirectory_direct (h : Entries (front ++ [c])) :
    matchesDirectory a (absolute (front ++ [c])) params masks false =
      masks.any (·.isMatch a c false (absolute front) params) := by
  rw [matchesDirectory, unixExtractFileName_absolute front h.last.slash_free,
    parentPath_absolute h, matchesMasks, dif_neg (by simp), Bool.or_false]

theorem matchesDirectory_root (h : IsEntry c) :
    matchesDirectory a (absolute [c]) params masks true =
      matchesDirectory a (absolute [c]) params masks false := by
  have hentries : Entries ([] ++ [c]) := fun name hname => by
    rwa [mem_singleton.mp hname]
  have hname := unixExtractFileName_absolute [] h.slash_free
  have hparent := parentPath_absolute hentries
  rw [nil_append] at hname hparent
  rw [matchesDirectory, matchesDirectory, hname, hparent, matchesMasks,
    dif_neg (by decide), matchesMasks, dif_neg (by decide)]

/-- One step of the recursion goes to the directory that the entry is in. -/
theorem matchesDirectory_concat {name : Component} (h : Entries (front ++ [name] ++ [c])) :
    matchesDirectory a (absolute (front ++ [name] ++ [c])) params masks true =
      (matchesDirectory a (absolute (front ++ [name] ++ [c])) params masks false ||
        matchesDirectory a (absolute (front ++ [name])) params masks true) := by
  have hroot := isUnixRootPath_absolute h.append.1
  rw [matchesDirectory_direct h, matchesDirectory,
    unixExtractFileName_absolute _ h.last.slash_free, parentPath_absolute h, matchesMasks,
    dif_pos ⟨rfl, hroot, rfl⟩, matchesDirectory]

/-- The masks match an entry on the way to a directory, where that entry is. -/
def MatchedOnWay (a : CaseApi) (params : Option MaskParams) (masks : List FileMask)
    (components : List Component) : Prop :=
  ∃ front c back, components = front ++ c :: back ∧
    matchesMasks a c false true (absolute front) params masks false = true

theorem MatchedOnWay.append (h : MatchedOnWay a params masks front) (back : List Component) :
    MatchedOnWay a params masks (front ++ back) := by
  obtain ⟨before, c, after, rfl, hmatch⟩ := h
  exact ⟨before, c, after ++ back, by simp, hmatch⟩

theorem matchedOnWay_nil : ¬ MatchedOnWay a params masks [] := by
  rintro ⟨front, c, back, hnil, -⟩
  exact absurd hnil (by simp)

theorem matchedOnWay_concat (h : Entries (front ++ [c])) :
    MatchedOnWay a params masks (front ++ [c]) ↔
      matchesDirectory a (absolute (front ++ [c])) params masks false = true ∨
        MatchedOnWay a params masks front := by
  rw [matchesDirectory, unixExtractFileName_absolute front h.last.slash_free,
    parentPath_absolute h]
  constructor
  · rintro ⟨before, name, after, hsplit, hmatch⟩
    -- the entry is the last one, or it is in front of it
    rcases eq_nil_or_concat after with rfl | ⟨after, last, rfl⟩
    · obtain ⟨rfl, hlast⟩ := append_inj' hsplit rfl
      rw [singleton_inj.mp hlast]
      exact .inl hmatch
    · rw [concat_eq_append, ← cons_append, ← append_assoc] at hsplit
      exact .inr ⟨before, name, after, (append_inj' hsplit rfl).1, hmatch⟩
  · rintro (hmatch | hway)
    · exact ⟨front, c, [], rfl, hmatch⟩
    · exact hway.append [c]

theorem matchesDirectory_iff (h : Entries (front ++ [c])) :
    matchesDirectory a (absolute (front ++ [c])) params masks true = true ↔
      MatchedOnWay a params masks (front ++ [c]) := by
  induction front using List.reverseRecOn generalizing c with
  | nil =>
    rw [matchedOnWay_concat h, nil_append, matchesDirectory_root h.last]
    exact (or_iff_left matchedOnWay_nil).symm
  | append_singleton front name ih =>
    rw [matchedOnWay_concat h, matchesDirectory_concat h, Bool.or_eq_true, ih h.append.1]

/-- Directory masks are inherited. A directory matches when an entry on the way to it
does, and then everything below it matches too. -/
theorem matchesDirectory_inherited (a : CaseApi) (params : Option MaskParams)
    (masks : List FileMask) {components : List Component} (hne : components ≠ [])
    (h : Entries components) :
    (matchesDirectory a (absolute components) params masks true = true ↔
      MatchedOnWay a params masks components) ∧
    ∀ below, Entries below → matchesDirectory a (absolute components) params masks true = true →
      matchesDirectory a (absolute (components ++ below)) params masks true = true := by
  obtain ⟨front, c, rfl⟩ := (List.eq_nil_or_concat components).resolve_left hne
  rw [List.concat_eq_append] at *
  refine ⟨matchesDirectory_iff h, fun below hbelow hmatch => ?_⟩
  rcases List.eq_nil_or_concat below with rfl | ⟨rest, last, rfl⟩
  · rwa [List.append_nil]
  · rw [List.concat_eq_append] at *
    have hall : Entries (front ++ [c] ++ (rest ++ [last])) := List.forall_mem_append.mpr ⟨h, hbelow⟩
    rw [← List.append_assoc] at hall ⊢
    rw [matchesDirectory_iff hall, List.append_assoc]
    exact ((matchesDirectory_iff h).mp hmatch).append _

/-- `/a/b.` matches, since `a` has no extension. -/
theorem matchesDirectory_inherited_noExt : matchesDirectory asciiCase
    (absolute [[97], [98, dot]]) none [{ fileNameMaskKind := .noExt }] true = true := by
  have hentries : Entries [[97], [98, dot]] := by
    intro c hc
    simp only [List.mem_cons, List.not_mem_nil, or_false] at hc
    rcases hc with rfl | rfl <;> exact ⟨by decide, by decide, by decide⟩
  refine (matchesDirectory_inherited asciiCase none _ (by simp) hentries).1.mpr ?_
  exact ⟨[], [97], [[98, dot]], rfl, by rw [matchesMasks]; rfl⟩

end NetBox.Masks
