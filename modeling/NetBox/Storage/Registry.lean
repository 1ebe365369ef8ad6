import NetBox.Storage.Hierarchical

/-! # The registry

`TRegistryStorage` of HierarchicalStorage.cpp over `TRegistry` of Classes.cpp. A key
is found whatever the case of its letters, and with it the keys on the way to it.
-/
namespace NetBox.Storage

open Base.Text Session

/-- The keys that the registry has, without a backslash at the end, the value that
says what may be done with a key, and the key that is open. -/
structure TRegistry where
  keys : List UnicodeString
  accessOf : UnicodeString → Option UnicodeString := fun _ => none
  currentPath : Option UnicodeString := none

/-- `ExcludeTrailingBackslash` of a key. -/
def excludeBackslash (key : UnicodeString) : UnicodeString :=
  if key.isEmpty then key else excludeTrailingBackslash key

namespace TRegistry

def hasKey (api : NameApi) (path : UnicodeString) (r : TRegistry) : Bool :=
  r.keys.any fun key =>
    api.text.sameText key path ||
      api.text.sameText (key.take (path.length + 1)) (path ++ [backslash])

/-- `CloseKey` -/
def closeKey (r : TRegistry) : TRegistry := { r with currentPath := none }

/-- `OpenKey` of a path from the root. -/
def openKey (api : NameApi) (path : UnicodeString) (canCreate : Bool) (r : TRegistry) :
    Bool × TRegistry :=
  let key := excludeBackslash path
  if r.hasKey api key then (true, { r with currentPath := some path })
  else if canCreate then
    (true, { r with keys := key :: r.keys, currentPath := some path })
  else (false, r)

/-- `KeyExists` of a key inside the one that is open. -/
def keyExists (api : NameApi) (subKey : UnicodeString) (r : TRegistry) : Bool :=
  match r.currentPath with
  | some path => r.hasKey api (excludeBackslash path ++ [backslash] ++ subKey)
  | none => r.hasKey api subKey

end TRegistry

/-- `TRegistryStorage` with the key that it is kept under. -/
def registryBackend (c : KeyConfig) (storage : UnicodeString) : Backend TRegistry where
  doOpenSubKey history subKey canCreate r :=
    let current := THierarchicalStorage.currentSubKey c.api { keyHistory := history, backend := r }
    let key := excludeBackslash (storage ++ current ++ subKey)
    match r.closeKey.openKey c.api key canCreate with
    | (true, opened) => (true, opened)
    | (false, closed) =>
      match r.currentPath with
      | some prevPath => (false, (closed.openKey c.api prevPath false).2)
      | none => (false, closed)
  doCloseSubKey history r :=
    match history with
    | [] => r.closeKey
    | entry :: _ => (r.closeKey.openKey c.api (storage ++ entry.key) true).2
  doKeyExists history subKey forceAnsi r :=
    let key := mungeStr subKey forceAnsi
    let key :=
      if THierarchicalStorage.mungingKeyName c key { keyHistory := history, backend := r } then
        mungeStr key forceAnsi
      else key
    r.keyExists c.api key
  accessValue _ r := r.currentPath.bind r.accessOf

end NetBox.Storage
