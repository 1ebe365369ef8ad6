import NetBox.Session.Password

/-! # Names of keys

`MungeStr` and `UnMungeStr` of HierarchicalStorage.cpp: the name of a key as it is
stored, with `%XX` for what a registry key may not hold, and back.
-/
namespace NetBox.Storage

open Base.Text Lib Session

/-- What the operating system does with the names of keys. -/
structure NameApi where
  text : TextApi
  reader : Utf8Reader
  ansiToString : List UInt8 → UnicodeString

/-- `CONST_BOM` -/
def bom : List UInt8 := [0xEF, 0xBB, 0xBF]

/-- The bytes that are escaped: a dot only at the beginning. -/
def isEscaped (candot : Bool) (b : UInt8) : Bool :=
  b == 32 || b == 92 || b == 42 || b == 63 || b == 37 || b < 32 || 126 < b || (b == 46 && !candot)

/-- `escape_registry_key` -/
def escapeRegistryKey : Bool → List UInt8 → List UInt8
  | _, [] => []
  | candot, b :: rest =>
    if isEscaped candot b then
      37 :: (hexDigit (b.toNat / 16)).toUInt8 :: (hexDigit (b.toNat % 16)).toUInt8 ::
        escapeRegistryKey true rest
    else b :: escapeRegistryKey true rest

/-- The value of a digit. It is not checked that it is one. -/
def digitValue (b : UInt8) : Int :=
  let i : Int := (if b.toNat < 128 then (b.toNat : Int) else b.toNat - 256) - 48
  if 9 < i then i - 7 else i

/-- `unescape_registry_key` -/
def unescapeRegistryKey : List UInt8 → List UInt8
  | 37 :: a :: b :: rest =>
    ((digitValue a * 16 + digitValue b) % 256).toNat.toUInt8 :: unescapeRegistryKey rest
  | b :: rest => b :: unescapeRegistryKey rest
  | [] => []

/-- `MungeStr` of a name. What is not ASCII is marked, unless ANSI is forced. -/
def mungeStr (str : UnicodeString) (forceAnsi : Bool) : UnicodeString :=
  let utf := Utf8.encode str
  let source := if !forceAnsi && str.length < utf.length then bom ++ utf else utf
  (escapeRegistryKey false (cstr source)).map (·.toUInt16)

/-- `UnMungeStr` -/
def unMungeStr (api : NameApi) (str : UnicodeString) : UnicodeString :=
  if str.isEmpty then [] else
    let dest := cstr (unescapeRegistryKey (cstr (Utf8.encode str)))
    if dest.take bom.length = bom then api.reader.toText (dest.drop bom.length)
    else api.ansiToString dest

end NetBox.Storage
