import NetBox.Base.Text

/-! # Rights of a remote file

`TRights` of RemoteFiles.cpp keeps the bits that are known to be set and those
known to be unset in two numbers. A bit in neither of them is undefined. The
rights are read from a text like `rwxr-sr-x`, from a number, bit by bit, or are
combined from other rights.
-/
namespace NetBox.Remote
open Base.Text

abbrev Flags := BitVec 16

/-- `TRight`, from the set-user-ID bit (0) down to the execute bit of others (11). -/
abbrev Right := Fin 12

inductive RightState
  | no
  | yes
  | undef
deriving DecidableEq

structure TRights where
  text : UnicodeString
  set : Flags
  unset : Flags
  allowUndef : Bool
  unknown : Bool
deriving DecidableEq

/-- What cannot be read as rights. -/
inductive RightsError
  | text (value : UnicodeString)
  | octal (value : UnicodeString)
deriving DecidableEq

def rfAllSpecials : Flags := 0o7777#16

def textLen : Nat := 9
def undefSymbol : WChar := 36
def unsetSymbol : WChar := 45
def unsetSymbolWin : WChar := 42
def basicSymbols : UnicodeString := wstr "rwxrwxrwx"
def combinedSymbols : UnicodeString := wstr "--s--s--t"
def extendedSymbols : UnicodeString := wstr "--S--S--T"

def rightToFlag (right : Right) : Flags := 1#16 <<< (11 - right.val)

namespace TRights

def getNumber (r : TRights) : Flags := r.set

def setNumber (r : TRights) (value : Flags) : TRights :=
  let r := if r.set ≠ value ∨ r.set ||| r.unset ≠ rfAllSpecials then
      { r with set := value, unset := rfAllSpecials &&& ~~~value, text := [] }
    else r
  { r with unknown := false }

/-- `TRights(ANumber)`. -/
def ofNumber (number : Flags) : TRights := setNumber ⟨[], 0, 0, false, true⟩ number

def setAllowUndef (r : TRights) (value : Bool) : TRights := { r with allowUndef := value }

def getRightUndef (r : TRights) (right : Right) : RightState :=
  if r.set &&& rightToFlag right ≠ 0 then .yes
  else if r.unset &&& rightToFlag right ≠ 0 then .no
  else .undef

def setRightUndef (r : TRights) (right : Right) (value : RightState) : TRights :=
  let flag := rightToFlag right
  let r := if value ≠ r.getRightUndef right then
      match value with
      | .yes => { r with set := r.set ||| flag, unset := r.unset &&& ~~~flag, text := [] }
      | .no => { r with set := r.set &&& ~~~flag, unset := r.unset ||| flag, text := [] }
      | .undef => { r with set := r.set &&& ~~~flag, unset := r.unset &&& ~~~flag, text := [] }
    else r
  { r with unknown := false }

def setRight (r : TRights) (right : Right) (value : Bool) : TRights :=
  r.setRightUndef right (if value then .yes else .no)

def allUndef (r : TRights) : TRights :=
  let r := if r.set ≠ 0 ∨ r.unset ≠ 0 then { r with set := 0, unset := 0, text := [] } else r
  { r with unknown := false }

/-! ## The text -/

/-- The symbol of a position, from the bits of the position. Only the last symbol
of a group shows the extended bit. -/
def symbol (r : TRights) (index : Nat) (flag ext : Flags) : WChar :=
  let extendedPos := index % 3 == 0
  if extendedPos && r.set &&& (flag ||| ext) == flag ||| ext then combinedSymbols.getD (index - 1) 0
  else if r.set &&& flag ≠ 0 then basicSymbols.getD (index - 1) 0
  else if extendedPos && r.set &&& ext != 0 then extendedSymbols.getD (index - 1) 0
  else if (!extendedPos && r.unset &&& flag == flag) ||
      (extendedPos && r.unset &&& (flag ||| ext) == flag ||| ext) then unsetSymbol
  else undefSymbol

/-- The loop of `GetText`, which goes from the last position to the first. -/
def symbols (r : TRights) : Nat → Flags → Flags → UnicodeString → UnicodeString
  | 0, _, _, result => result
  | index + 1, flag, ext, result =>
    symbols r index (flag <<< 1) (if index % 3 = 0 then ext <<< 1 else ext)
      (r.symbol (index + 1) flag ext :: result)

def getText (r : TRights) : UnicodeString :=
  if r.text ≠ [] then r.text else r.symbols textLen 0o1#16 0o1000#16 []

/-- What a character means at its position. -/
inductive Symbol
  | unset
  | undef
  | combined
  | extended
  | basic
deriving DecidableEq

def isUnset (ch : WChar) : Bool := ch == unsetSymbol || ch == unsetSymbolWin

def symbolAt (index : Nat) (ch : WChar) : Symbol :=
  if isUnset ch then .unset
  else if ch = undefSymbol then .undef
  else if ch = combinedSymbols.getD (index - 1) 0 then .combined
  else if ch = extendedSymbols.getD (index - 1) 0 then .extended
  else .basic

/-- One round of the loop of `SetText`. -/
def readSymbol (r : TRights) (index : Nat) (flag ext : Flags) : Symbol → TRights
  | .unset => { r with unset := r.unset ||| (flag ||| ext) }
  | .undef => r
  | .combined => { r with set := r.set ||| (flag ||| ext) }
  | .extended => { r with set := r.set ||| ext, unset := r.unset ||| flag }
  | .basic =>
    { r with set := r.set ||| flag, unset := if index % 3 = 0 then r.unset ||| ext else r.unset }

/-- The loop of `SetText` over the characters, the last one first. -/
def readSymbols (r : TRights) : Flags → Flags → UnicodeString → TRights
  | _, _, [] => r
  | flag, ext, ch :: rest =>
    let index := rest.length + 1
    readSymbols (r.readSymbol index flag ext (symbolAt index ch)) (flag <<< 1)
      (if index % 3 = 1 then ext <<< 1 else ext) rest

/-- A text with characters that are not written by `GetText` is kept. -/
def keepsText (value : UnicodeString) : Bool :=
  (List.range value.length).any fun i =>
    symbolAt (i + 1) (value.getD i 0) == .basic && value.getD i 0 != basicSymbols.getD i 0

/-- A text that `SetText` refuses. -/
def refuses (r : TRights) (value : UnicodeString) : Bool :=
  value.length != textLen || (!r.allowUndef && value.contains undefSymbol) || value.contains 32

def setText (r : TRights) (value : UnicodeString) : Except RightsError TRights :=
  if value = r.getText then .ok { r with unknown := false }
  else if r.refuses value then .error (.text value)
  else
    let read := readSymbols { r with set := 0, unset := 0 } 0o1#16 0o1000#16 value.reverse
    .ok { read with text := if keepsText value then value else [], unknown := false }

def setTextOverride (r : TRights) (value : UnicodeString) : TRights :=
  if r.text ≠ value then { r with text := value, unknown := false } else r

/-! ## Octal numbers -/

def octalDigit (n : Flags) (shift : Nat) : WChar := 48 + ((n >>> shift) &&& 7#16).toNat.toUInt16

def getOctal (r : TRights) : UnicodeString :=
  [octalDigit r.set 9, octalDigit r.set 6, octalDigit r.set 3, octalDigit r.set 0]

def isOctal (ch : WChar) : Bool := 48 ≤ ch && ch ≤ 55

def octalValue (ch : WChar) : Flags := BitVec.ofNat 16 (ch.toNat - 48)

def setOctal (r : TRights) (aValue : UnicodeString) : Except RightsError TRights :=
  let value := if aValue.length = 3 then 48 :: aValue else aValue
  if r.getOctal = value then .ok { r with unknown := false }
  else
    match value with
    | [a, b, c, d] =>
      if isOctal a && isOctal b && isOctal c && isOctal d then
        .ok { r.setNumber (octalValue a <<< 9 + octalValue b <<< 6 + octalValue c <<< 3 +
          octalValue d) with text := [] }
      else .error (.octal aValue)
    | _ => .error (.octal aValue)

/-! ## Rights from rights -/

def orNumber (r : TRights) (rhs : Flags) : TRights := r.setNumber (r.getNumber ||| rhs)

def orRights (r rhs : TRights) : TRights := r.setNumber (r.getNumber ||| rhs.getNumber)

def andNumber (r : TRights) (rhs : Flags) : TRights := r.setNumber (r.getNumber &&& rhs)

/-- Where the two differ, a right becomes undefined. -/
def andRight (rhs : TRights) (r : TRights) (right : Right) : TRights :=
  if r.getRightUndef right ≠ rhs.getRightUndef right then r.setRightUndef right .undef else r

def andRights (r rhs : TRights) : TRights :=
  if r.allowUndef || rhs.allowUndef then (List.finRange 12).foldl (andRight rhs) r
  else r.setNumber (r.getNumber &&& rhs.getNumber)

/-- `operator ~`. -/
def complement (r : TRights) : TRights := ofNumber (~~~r.getNumber)

def combine (r other : TRights) : TRights := (r.orNumber other.set).andNumber (~~~other.unset)

/-- The rights of a group: its read, write and execute right. -/
def addExecuteTo (r : TRights) (group : Fin 3) : TRights :=
  if r.getRightUndef ⟨3 + group.val * 3, by omega⟩ = .yes ∨
      r.getRightUndef ⟨4 + group.val * 3, by omega⟩ = .yes then
    { r.setRight ⟨5 + group.val * 3, by omega⟩ true with text := [] }
  else r

def addExecute (r : TRights) : TRights :=
  { (List.finRange 3).foldl addExecuteTo r with unknown := false }

def setReadOnly (r : TRights) (value : Bool) : TRights :=
  ((r.setRight 4 (!value)).setRight 7 (!value)).setRight 10 (!value)

end TRights

example : (TRights.setText (.ofNumber 0) (wstr "rwsr-xr--")).toOption.map (·.set) =
    some 0o4754#16 := by decide

end NetBox.Remote
