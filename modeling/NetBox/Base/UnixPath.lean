import NetBox.Base.Text
import NetBox.Lib.Edit

/-! # Absolute paths

`AbsolutePath` of Common.cpp and what it uses: a path is made absolute as a
text, without asking the server.
-/
namespace NetBox.Base.Text
open Lib.Edit

def isLetter (ch : WChar) : Bool :=
  (97 ≤ ch && ch ≤ 122) || (65 ≤ ch && ch ≤ 90)

def isUnixStyleWindowsPath (path : UnicodeString) : Bool :=
  match path with
  | a :: b :: c :: _ => isLetter a && b == 58 && c == slash
  | _ => false

/-- The root keeps its slash, and is what is left of an empty path. -/
def unixExcludeTrailingBackslash (path : UnicodeString) : UnicodeString :=
  let result :=
    if path.isEmpty || path == [slash] || !isDelimiter [slash] path path.length ||
        (path.length == 3 && isUnixStyleWindowsPath path) then path
    else path.dropLast
  if result.isEmpty then [slash] else result

theorem unixExcludeTrailingBackslash_ne_nil (path : UnicodeString) :
    unixExcludeTrailingBackslash path ≠ [] := by
  have hroot : ∀ result : UnicodeString, (if result.isEmpty then [slash] else result) ≠ [] := by
    intro result
    cases result <;> simp
  exact hroot _

/-- The directory of a path with its slash. -/
def unixExtractFilePath (path : UnicodeString) : UnicodeString :=
  path.take (lastDelimiter [slash] path)

/-- One `/name/..` is taken out, where `/../` at the beginning leaves the root
and nothing else. -/
def removeParent (path : UnicodeString) : Option UnicodeString :=
  match pos (wstr "/../") path with
  | 0 => none
  | 1 => some [slash]
  | p + 2 =>
    let p2 := lastDelimiter [slash] (path.take (p + 1))
    some (deleteAt path (p2 - 1) (p + 2 - p2 + 3))

/-- One `/.` is taken out. -/
def removeThis (path : UnicodeString) : Option UnicodeString :=
  match pos (wstr "/./") path with
  | 0 => none
  | p + 1 => some (deleteAt path p 2)

/-- Takes out as long as there is something. Each time the path gets shorter. -/
def whileFound (remove : UnicodeString → Option UnicodeString) : Nat → UnicodeString → UnicodeString
  | 0, path => path
  | fuel + 1, path =>
    match remove path with
    | some path => whileFound remove fuel path
    | none => path

def absolutePath (base path : UnicodeString) : UnicodeString :=
  match path with
  | [] => base
  | ch :: _ =>
    if ch = slash then unixExcludeTrailingBackslash path
    else
      let result := unixIncludeTrailingBackslash (unixCombinePaths base path)
      let result := whileFound removeParent result.length result
      let result := whileFound removeThis result.length result
      unixExcludeTrailingBackslash result

example : absolutePath (wstr "/home/user/") (wstr "../x/./y") = wstr "/home/x/y" := by decide

end NetBox.Base.Text
