import NetBox.Base.UnixPath

/-! # Remote directories with symbolic links

The files of a server by their real paths, and what a listing of a directory
shows of them. A real path is the names from the root down, with no link on the
way. A link shows the type of what it leads to.
-/
namespace NetBox.Terminal
open Base.Text List

/-- The names from the root down. -/
abbrev RealPath := List UnicodeString

inductive Kind
  | file (size : Nat)
  | dir
  | link (target : UnicodeString)
deriving DecidableEq

/-- The files of a server. Each has one real path, and lies in a directory. -/
structure Remote where
  files : List (RealPath × Kind)
  distinct : (files.map Prod.fst).Nodup
  inside : ∀ f ∈ files, f.1 ≠ [] ∧ (f.1.dropLast = [] ∨ (f.1.dropLast, Kind.dir) ∈ files)

namespace Remote

def kind (r : Remote) (path : RealPath) : Option Kind :=
  if path = [] then some .dir else (r.files.find? fun f => f.1 == path).map Prod.snd

/-- The real paths of all directories. -/
def dirs (r : Remote) : List RealPath :=
  [] :: (r.files.filter fun f => f.2 == .dir).map Prod.fst

/-- The names of a path between its slashes. -/
def components (path : UnicodeString) : List UnicodeString :=
  path.splitOnP (· == slash)

/-- Where the names lead from directory `current`. The server gives up after
`limit` names, as it does on a circle of links. -/
def follow (r : Remote) : Nat → RealPath → List UnicodeString → Option RealPath
  | _, current, [] => some current
  | 0, _, _ :: _ => none
  | limit + 1, current, name :: names =>
    if name = [] ∨ name = wstr "." then r.follow limit current names
    else if name = wstr ".." then r.follow limit current.dropLast names
    else
      match r.kind (current ++ [name]) with
      | some .dir => r.follow limit (current ++ [name]) names
      | some (.file _) => if names = [] then some (current ++ [name]) else none
      | some (.link target) =>
        r.follow limit (if target.head? = some slash then [] else current)
          (components target ++ names)
      | none => none

end Remote

/-- A file of a listing. -/
structure RemoteFile where
  fileName : UnicodeString
  fullFileName : UnicodeString
  isDirectory : Bool
  isSymLink : Bool
  linkTo : UnicodeString
  /-- The size of what `Resolve` leads to. -/
  size : Nat
  /-- Where the file is, or what the link leads to. -/
  real : RealPath
deriving DecidableEq

/-- `GetFullFileName` of a file in this directory. -/
def fullFileName (directory fileName : UnicodeString) (isDirectory : Bool) : UnicodeString :=
  if isDirectory then unixIncludeTrailingBackslash (unixCombinePaths directory fileName)
  else unixIncludeTrailingBackslash directory ++ fileName

namespace Remote

/-- A file as the listing of its directory shows it. -/
def present (r : Remote) (limit : Nat) (directory : UnicodeString) (path : RealPath) (kind : Kind) :
    RemoteFile :=
  let name := path.getLast?.getD []
  match kind with
  | .file size => ⟨name, fullFileName directory name false, false, false, [], size, path⟩
  | .dir => ⟨name, fullFileName directory name true, true, false, [], 0, path⟩
  | .link target =>
    match r.follow limit path.dropLast [name] with
    | some real =>
      match r.kind real with
      | some .dir => ⟨name, fullFileName directory name true, true, true, target, 0, real⟩
      | some (.file size) => ⟨name, fullFileName directory name false, false, true, target, size, real⟩
      | _ => ⟨name, fullFileName directory name false, false, true, target, 0, path⟩
    | none => ⟨name, fullFileName directory name false, false, true, target, 0, path⟩

/-- The listing of the directory with this real path, asked for as `directory`. -/
def list (r : Remote) (limit : Nat) (directory : UnicodeString) (real : RealPath) :
    List RemoteFile :=
  (r.files.filter fun f => f.1.dropLast == real).map fun f => r.present limit directory f.1 f.2

end Remote

theorem Remote.mem_dirs {r : Remote} {path : RealPath} (h : r.kind path = some .dir) :
    path ∈ r.dirs := by
  unfold kind at h
  split at h
  · next hnil => rw [hnil]; exact mem_cons_self
  · obtain ⟨⟨p, k⟩, hfind, hk⟩ := Option.map_eq_some_iff.mp h
    have hmem := mem_of_find?_eq_some hfind
    have hp : p = path := by simpa using find?_some hfind
    cases hk
    subst hp
    exact mem_cons_of_mem _ (mem_map.mpr ⟨_, mem_filter.mpr ⟨hmem, rfl⟩, rfl⟩)

/-- What is listed as a directory is one, whatever links lead there. -/
theorem Remote.list_dir {r : Remote} {limit : Nat} {directory : UnicodeString} {real : RealPath}
    {file : RemoteFile} (h : file ∈ r.list limit directory real) (hd : file.isDirectory = true) :
    file.real ∈ r.dirs := by
  obtain ⟨⟨path, kind⟩, hmem, rfl⟩ := mem_map.mp h
  obtain ⟨hmem, -⟩ := mem_filter.mp hmem
  dsimp only at hd ⊢
  unfold present at hd ⊢
  cases kind with
  | file size => cases hd
  | dir => exact mem_cons_of_mem _ (mem_map.mpr ⟨_, mem_filter.mpr ⟨hmem, rfl⟩, rfl⟩)
  | link target =>
    dsimp only at hd ⊢
    split at hd
    · split at hd
      · next hkind => exact mem_dirs hkind
      · cases hd
      · cases hd
    · cases hd

end NetBox.Terminal
