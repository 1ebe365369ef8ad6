import NetBox.Base.UnixPath

/-! # The local name of a downloaded file

`ChangeFileName` turns the name that the server has sent into a local one: by the
mask of the operation on the first level, by a change of case, and by replacing
characters that are not valid. The case tables are those of the system.
-/
namespace NetBox.Scp
open Base.Text List

inductive FileNameCase
  | ncNoChange | ncUpperCase | ncLowerCase | ncFirstUpperCase | ncLowerCaseShort
deriving DecidableEq

def tokenPrefixChar : WChar := 37
def noReplacement : WChar := 0
def tokenReplacement : WChar := 1

/-- The settings that a local name depends on. -/
structure Naming where
  trimVMSVersions : Bool
  fileMask : UnicodeString
  fileNameCase : FileNameCase
  upperCase : UnicodeString → UnicodeString
  lowerCase : UnicodeString → UnicodeString
  invalidCharsReplacement : WChar
  tokenizibleChars : UnicodeString
  localInvalidChars : UnicodeString

def getBaseFileName (n : Naming) (fileName : UnicodeString) : UnicodeString :=
  let p := lastDelimiter (wstr ";") fileName
  if n.trimVMSVersions ∧ 0 < p then fileName.take (p - 1) else fileName

/-- The part of a name under a mask. `rest` is what is left of the part, and a
backslash takes the next character of the mask as it is. -/
def maskFilePart : UnicodeString → Bool → UnicodeString → UnicodeString
  | _, _, [] => []
  | rest, true, m :: mask => m :: maskFilePart rest.tail false mask
  | rest, false, m :: mask =>
    if m = backslash then maskFilePart rest true mask
    else if m = 42 then rest ++ maskFilePart [] false mask
    else if m = 63 then rest.take 1 ++ maskFilePart rest.tail false mask
    else m :: maskFilePart rest.tail false mask

def isEffectiveFileNameMask (mask : UnicodeString) : Bool :=
  !mask.isEmpty && mask != wstr "*" && mask != wstr "*.*"

def maskFileName (fileName mask : UnicodeString) : UnicodeString :=
  if isEffectiveFileNameMask mask then
    let p := lastDelimiter (wstr ".") mask
    if 0 < p then
      let p2 := lastDelimiter (wstr ".") fileName
      -- a dot at the beginning does not separate an extension
      let fileExt := maskFilePart (if 1 < p2 then fileName.drop p2 else []) false (mask.drop p)
      let fileName := if 1 < p2 then fileName.take (p2 - 1) else fileName
      let fileName := maskFilePart fileName false (mask.take (p - 1))
      if fileExt ≠ [] then fileName ++ wstr "." ++ fileExt else fileName
    else maskFilePart fileName false mask
  else fileName

/-- The percent sign does not begin the token of a character that is replaced. -/
def plainPercent (tokenizible rest : UnicodeString) : Bool :=
  match rest with
  | a :: b :: _ => hexToByte a b == 0 || !tokenizible.contains (hexToByte a b).toUInt16
  | _ => true

/-- Replaces the characters that are not valid, from left to right. There is no
token for a character above 255. -/
def replaceChars (replacement : WChar) (tokenizible invalid : UnicodeString) :
    UnicodeString → Option UnicodeString
  | [] => some []
  | ch :: rest =>
    let token := replacement == tokenReplacement
    if (if token then tokenizible else invalid).contains ch then
      if token && ch == tokenPrefixChar && plainPercent tokenizible rest then
        (replaceChars replacement tokenizible invalid rest).map (ch :: ·)
      else if token then
        if ch > 0xFF then none
        else (replaceChars replacement tokenizible invalid rest).map
          (tokenPrefixChar :: byteToHex ch.toUInt8 ++ ·)
      else (replaceChars replacement tokenizible invalid rest).map (replacement :: ·)
    else (replaceChars replacement tokenizible invalid rest).map (ch :: ·)

def validLocalFileName (n : Naming) (fileName : UnicodeString) : Option UnicodeString :=
  if n.invalidCharsReplacement ≠ noReplacement then
    replaceChars n.invalidCharsReplacement n.tokenizibleChars n.localInvalidChars fileName
  else some fileName

def changeCase (n : Naming) (fileName : UnicodeString) : UnicodeString :=
  match n.fileNameCase with
  | .ncNoChange => fileName
  | .ncUpperCase => n.upperCase fileName
  | .ncLowerCase => n.lowerCase fileName
  | .ncFirstUpperCase => n.upperCase (fileName.take 1) ++ n.lowerCase (fileName.drop 1)
  | .ncLowerCaseShort =>
    if fileName.length ≤ 12 ∧ pos (wstr ".") fileName ≤ 9 ∧ fileName = n.upperCase fileName then
      n.lowerCase fileName
    else fileName

/-- The local name, or `none` when a character cannot be replaced. -/
def changeFileName (n : Naming) (fileName : UnicodeString) (firstLevel : Bool) :
    Option UnicodeString :=
  let fileName := getBaseFileName n fileName
  let fileName := if firstLevel then maskFileName fileName n.fileMask else fileName
  validLocalFileName n (changeCase n fileName)

/-! ## Where a local path leads -/

def isSeparator (ch : WChar) : Bool := ch == slash || ch == backslash

/-- One component further from a directory. -/
def enter (dir : List UnicodeString) (component : UnicodeString) : List UnicodeString :=
  if component = [] ∨ component = wstr "." then dir
  else if component = wstr ".." then dir.dropLast
  else dir ++ [component]

/-- Goes along a path; `component` is what has been read of the next one. -/
def walk (dir : List UnicodeString) (component : UnicodeString) : UnicodeString → List UnicodeString
  | [] => enter dir component
  | ch :: path =>
    if isSeparator ch then walk (enter dir component) [] path
    else walk dir (component ++ [ch]) path

/-- The components of the place a path leads to. -/
def place (path : UnicodeString) : List UnicodeString := walk [] [] path

/-- The path leads to a place strictly below the directory. -/
def StrictlyBelow (directory path : UnicodeString) : Prop :=
  ∃ rest, rest ≠ [] ∧ place path = place directory ++ rest

/-- A name that is one component, and not one of those for a directory itself or
its parent. -/
def PlainName (name : UnicodeString) : Prop :=
  name ≠ [] ∧ name ≠ wstr "." ∧ name ≠ wstr ".." ∧ ∀ ch ∈ name, isSeparator ch = false

instance (name : UnicodeString) : Decidable (PlainName name) :=
  decidable_of_iff (name ≠ [] ∧ name ≠ wstr "." ∧ name ≠ wstr ".." ∧
    name.all (fun ch => !isSeparator ch) = true) (by simp [PlainName])

variable {dir : List UnicodeString} {component name path directory : UnicodeString}

theorem walk_append (a b : UnicodeString) {sep : WChar} (hsep : isSeparator sep = true) :
    walk dir component (a ++ sep :: b) = walk (walk dir component a) [] b := by
  induction a generalizing dir component with
  | nil => simp [walk, hsep]
  | cons ch a ih =>
    simp only [cons_append, walk]
    split
    · exact ih
    · exact ih

theorem walk_of_no_separator (h : ∀ ch ∈ path, isSeparator ch = false) :
    walk dir component path = enter dir (component ++ path) := by
  induction path generalizing component with
  | nil => simp [walk]
  | cons ch path ih =>
    rw [walk, h ch mem_cons_self, if_neg Bool.false_ne_true,
      ih fun c hc => h c (mem_cons_of_mem _ hc)]
    simp

theorem place_include (directory name : UnicodeString) :
    place (includeTrailingBackslash directory ++ name) = walk (place directory) [] name := by
  unfold includeTrailingBackslash place
  split
  · next hend =>
    unfold endsIn at hend
    cases hlast : directory.getLast? with
    | none => rw [hlast] at hend; cases hend
    | some ch =>
      rw [hlast] at hend
      obtain ⟨front, hfront⟩ := getLast?_eq_some_iff.mp hlast
      have hsep : isSeparator ch = true := by simpa [isSeparator] using hend
      have hempty : walk (walk [] [] front) [] [] = walk [] [] front := by simp [walk, enter]
      rw [hfront, append_assoc, singleton_append, walk_append _ _ hsep,
        walk_append _ _ hsep, hempty]
  · rw [append_assoc, singleton_append, walk_append _ _ rfl]

/-- A plain name leads one component down. -/
theorem place_plain (h : PlainName name) (directory : UnicodeString) :
    place (includeTrailingBackslash directory ++ name) = place directory ++ [name] := by
  obtain ⟨hne, hdot, hdots, hsep⟩ := h
  rw [place_include, walk_of_no_separator hsep, nil_append, enter,
    if_neg (by simp [hne, hdot]), if_neg hdots]

theorem StrictlyBelow.plain (h : PlainName name) (directory : UnicodeString) :
    StrictlyBelow directory (includeTrailingBackslash directory ++ name) :=
  ⟨[name], cons_ne_nil _ _, place_plain h directory⟩

theorem StrictlyBelow.trans {middle : UnicodeString} (h : StrictlyBelow directory middle)
    (h' : StrictlyBelow middle path) : StrictlyBelow directory path := by
  obtain ⟨rest, hne, hplace⟩ := h
  obtain ⟨rest', -, hplace'⟩ := h'
  refine ⟨rest ++ rest', by simp [hne], ?_⟩
  rw [hplace', hplace, append_assoc]

end NetBox.Scp
