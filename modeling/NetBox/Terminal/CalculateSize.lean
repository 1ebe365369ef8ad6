import NetBox.Terminal.Remote
import Mathlib.Logic.Function.Iterate
import Mathlib.Data.List.Nodup
import Mathlib.Data.List.Perm.Subperm

/-! # The size of a directory

`CalculateFileSize` goes down into directories and, when the session says so,
into links to directories. It keeps the directories it went into by a text: the
name a directory was reached under, or the target of a link made absolute from
that name. Two names of one real directory may have different texts.

Errors, their repetition and the collection of file names are left out. The
files a transfer setting excludes are a parameter.
-/
namespace NetBox.Terminal.CalculateSize
open Base.Text List

structure Settings where
  /-- `DoAllowRemoteFileTransfer` -/
  allowed : RemoteFile → Bool := fun _ => true
  allowDirs : Bool := true
  /-- `csStopOnFirstFile` -/
  stopOnFirstFile : Bool := false
  followDirectorySymlinks : Bool := true

/-- `TCalculateSizeParams`, with the real directories whose contents were added,
the last one first. -/
structure Params where
  visitedDirs : List UnicodeString := []
  size : Nat := 0
  result : Bool := true
  files : Nat := 0
  directories : Nat := 0
  symLinks : Nat := 0
  listed : List RealPath := []
deriving DecidableEq

def isRealFile (fileName : UnicodeString) : Bool :=
  fileName != wstr "." && fileName != wstr ".."

def canRecurseToDirectory (settings : Settings) (file : RemoteFile) : Bool :=
  !file.isSymLink || settings.followDirectorySymlinks

/-- The text a directory is kept by. -/
def realDirectory (fileName : UnicodeString) (file : RemoteFile) : UnicodeString :=
  unixExcludeTrailingBackslash
    (if file.isSymLink && !file.linkTo.isEmpty then
      absolutePath (unixExtractFilePath fileName) file.linkTo
    else fileName)

/-- `IndexOf` of the list of visited directories. -/
def visited (c : Collation) (visitedDirs : List UnicodeString) (key : UnicodeString) : Bool :=
  visitedDirs.any fun dir => c.text.same dir key

section
variable (c : Collation) (r : Remote) (limit : Nat) (settings : Settings)

/-- An empty name stands for the one of the file. -/
def properName (name : UnicodeString) (file : RemoteFile) : UnicodeString :=
  if name.isEmpty then file.fileName else name

/-- The name `ProcessDirectory` hands over for a file of a directory. -/
def childName (directory : RemoteFile) (file : RemoteFile) : UnicodeString :=
  unixIncludeTrailingBackslash directory.fullFileName ++ file.fileName

end

/-! ## The directories on the way

The files the recursion comes to, one after the other, as a search with a list of what is still
to be looked at.
-/

/-- A file under the name it is reached by. -/
structure Visit where
  fileName : UnicodeString
  file : RemoteFile

def Visit.ofItem (item : UnicodeString × RemoteFile) : Visit :=
  ⟨properName item.1 item.2, item.2⟩

def Visit.key (v : Visit) : UnicodeString := realDirectory v.fileName v.file

structure Search where
  /-- The directories gone into, the last one first. -/
  entered : List Visit := []
  files : Nat := 0
  todo : List Visit

/-- What the recursion goes by. -/
structure Context where
  c : Collation
  r : Remote
  limit : Nat
  settings : Settings
  visitedDirs : List UnicodeString

namespace Context

section
variable (k : Context) (s : Search)

def inside (v : Visit) : List Visit :=
  (k.r.list k.limit v.file.fullFileName v.file.real).flatMap fun child =>
    if isRealFile child.fileName then [.ofItem (childName v.file child, child)] else []

def goesInto (v : Visit) : Bool :=
  canRecurseToDirectory k.settings v.file && k.settings.allowDirs &&
    !(k.settings.stopOnFirstFile && 0 < s.files) &&
    !visited k.c (s.entered.map Visit.key ++ k.visitedDirs) v.key

def next : Search :=
  match s.todo with
  | [] => s
  | v :: todo =>
    if k.settings.allowed v.file then
      if v.file.isDirectory then
        if k.goesInto s v then
          { s with entered := v :: s.entered, todo := k.inside v ++ todo }
        else { s with todo }
      else { s with files := s.files + 1, todo }
    else { s with todo }

/-- A directory that the settings and the list of files let the recursion go into. -/
structure Enterable (v : Visit) : Prop where
  allowed : k.settings.allowed v.file = true
  isDirectory : v.file.isDirectory = true
  canRecurse : canRecurseToDirectory k.settings v.file = true
  new : visited k.c k.visitedDirs v.key = false

/-- A file that is in the list, or that is come to through the given directories. -/
inductive Way (starts dirs : List Visit) : Visit → Prop
  | start {v : Visit} (h : v ∈ starts) : Way starts dirs v
  | inside {u v : Visit} (hu : u ∈ dirs) (h : Way starts dirs u) (hv : v ∈ k.inside u) :
    Way starts dirs v

/-- What holds of the directories gone into and of those to come. -/
structure Inv (starts : List Visit) : Prop where
  apart : s.entered.Pairwise fun u v => k.c.text.same v.key u.key = false
  entered : ∀ v ∈ s.entered, k.Way starts s.entered v ∧ k.Enterable v ∧ v.file.real ∈ k.r.dirs
  todo : ∀ v ∈ s.todo, k.Way starts s.entered v ∧
    (v.file.isDirectory = true → v.file.real ∈ k.r.dirs)

end

section
variable {k : Context} {s : Search} {rest starts dirs : List Visit} {v : Visit}

theorem Way.cons (h : k.Way starts dirs v) (u : Visit) : k.Way starts (u :: dirs) v := by
  induction h with
  | start h => exact .start h
  | inside hu _ hv ih => exact .inside (mem_cons_of_mem _ hu) ih hv

theorem goesInto_new (h : k.goesInto s v = true) :
    (∀ u ∈ s.entered, k.c.text.same u.key v.key = false) ∧
      visited k.c k.visitedDirs v.key = false := by
  rw [goesInto, Bool.and_eq_true, Bool.not_eq_true', visited, any_append,
    Bool.or_eq_false_iff, any_map, any_eq_false] at h
  exact ⟨fun u hu => Bool.eq_false_iff.mpr (h.2.1 u hu), h.2.2⟩

theorem next_cases (P : Search → Prop) (hnil : s.todo = [] → P s)
    (hskip : ∀ v todo files, s.todo = v :: todo → P { s with files, todo })
    (henter : ∀ v todo, s.todo = v :: todo → k.Enterable v → k.goesInto s v = true →
      P { s with entered := v :: s.entered, todo := k.inside v ++ todo }) :
    P (k.next s) := by
  rw [next]
  split
  · exact hnil ‹_›
  · split
    · split
      · split
        · next hgoes =>
          refine henter _ _ ‹_› ⟨‹_›, ‹_›, ?_, (goesInto_new hgoes).2⟩ hgoes
          simp only [goesInto, Bool.and_eq_true] at hgoes
          exact hgoes.1.1.1
        · exact hskip _ _ _ ‹_›
      · exact hskip _ _ _ ‹_›
    · exact hskip _ _ _ ‹_›

theorem entered_suffix (n : Nat) : s.entered <:+ (k.next^[n] s).entered := by
  induction n with
  | zero => exact suffix_refl _
  | succ n ih =>
    rw [Function.iterate_succ_apply']
    refine next_cases (fun t => s.entered <:+ t.entered) (fun _ => ih) (fun _ _ _ _ => ih)
      fun v _ _ _ _ => ih.trans (suffix_cons v _)

theorem Inv.run (h : k.Inv s starts) (n : Nat) : k.Inv (k.next^[n] s) starts := by
  induction n with
  | zero => exact h
  | succ n ih =>
    rw [Function.iterate_succ_apply']
    refine next_cases (k.Inv · starts) (fun _ => ih) (fun v todo files htodo => ?_)
      fun v todo htodo henter hgoes => ?_
    · exact ⟨ih.apart, ih.entered, fun u hu => ih.todo u (htodo ▸ mem_cons_of_mem _ hu)⟩
    · obtain ⟨hway, hdir⟩ := ih.todo v (htodo ▸ mem_cons_self)
      refine ⟨pairwise_cons.mpr ⟨(goesInto_new hgoes).1, ih.apart⟩, fun u hu => ?_, fun u hu => ?_⟩
      · rcases mem_cons.mp hu with rfl | hu
        · exact ⟨hway.cons u, henter, hdir henter.isDirectory⟩
        · exact ⟨(ih.entered u hu).1.cons v, (ih.entered u hu).2⟩
      · rcases mem_append.mp hu with hu | hu
        · refine ⟨.inside mem_cons_self (hway.cons v) hu, fun hu' => ?_⟩
          obtain ⟨child, hchild, hu⟩ := mem_flatMap.mp hu
          split at hu
          · rw [mem_singleton.mp hu] at hu' ⊢
            exact Remote.list_dir hchild hu'
          · cases hu
        · have hu := ih.todo u (htodo ▸ mem_cons_of_mem _ hu)
          exact ⟨hu.1.cons v, hu.2⟩

/-- Where the keys tell directories apart, each is gone into once. -/
theorem Inv.nodup (h : k.Inv s starts)
    (hkeys : ∀ u ∈ s.entered, ∀ v ∈ s.entered, u.file.real = v.file.real →
      k.c.text.same u.key v.key = true) : (s.entered.map (·.file.real)).Nodup := by
  refine pairwise_map.mpr (h.apart.imp_of_mem fun {u v} hu hv hapart heq => ?_)
  rw [hkeys v hv u hu heq.symm] at hapart
  cases hapart

/-- There are no more of them than directories. -/
theorem Inv.length_le (h : k.Inv s starts) (hnodup : (s.entered.map (·.file.real)).Nodup) :
    s.entered.length ≤ k.r.dirs.length := by
  have hsub : s.entered.map (·.file.real) ⊆ k.r.dirs := by
    intro real hreal
    obtain ⟨u, hu, rfl⟩ := mem_map.mp hreal
    exact (h.entered u hu).2.2
  have hle := (subperm_of_subset hnodup hsub).length_le
  rwa [length_map] at hle

/-! ## The recursion -/

/-- The parameters say what the search has come to. -/
structure Follows (k : Context) (s : Search) (params : Params) : Prop where
  keys : params.visitedDirs = s.entered.map Visit.key ++ k.visitedDirs
  listed : params.listed = s.entered.map (·.file.real)
  files : params.files = s.files

/-- A part of the recursion does what the search does until only `rest` is to be looked at, or
the search goes into more directories than there is fuel. -/
def Agrees (k : Context) (fuel : Nat) (s : Search) (rest : List Visit)
    (result : Option Params) : Prop :=
  (∃ n params, result = some params ∧ k.Follows (k.next^[n] s) params ∧
    (k.next^[n] s).todo = rest) ∨
  result = none ∧ ∃ n, s.entered.length + fuel ≤ (k.next^[n] s).entered.length

variable {fuel : Nat} {result : Option Params} {params : Params}

theorem Agrees.map {f : Params → Params} (h : k.Agrees fuel s rest result)
    (hf : ∀ s params, k.Follows s params → k.Follows s (f params)) :
    k.Agrees fuel s rest (result.map f) := by
  rcases h with ⟨n, params, rfl, hfollows, htodo⟩ | ⟨rfl, hdeep⟩
  · exact .inl ⟨n, f params, rfl, hf _ _ hfollows, htodo⟩
  · exact .inr ⟨rfl, hdeep⟩

/-- What is not gone into is left behind by one step of the search. -/
theorem Agrees.skip {params' : Params} (h : k.Follows s params) (files : Nat)
    (hnext : k.next s = { s with files, todo := rest })
    (hdirs : params'.visitedDirs = params.visitedDirs) (hlisted : params'.listed = params.listed)
    (hfiles : params'.files = files) : k.Agrees fuel s rest (some params') := by
  refine .inl ⟨1, params', rfl, ?_⟩
  rw [Function.iterate_one, hnext]
  exact ⟨⟨hdirs ▸ h.keys, hlisted ▸ h.listed, hfiles⟩, rfl⟩

theorem Agrees.foldlM {α : Type} {f : Params → α → Option Params} (visits : α → List Visit)
    (hf : ∀ a s params rest, k.Follows s params → s.todo = visits a ++ rest →
      k.Agrees fuel s rest (f params a)) (l : List α)
    (h : k.Follows s params) (htodo : s.todo = l.flatMap visits ++ rest) :
    k.Agrees fuel s rest (l.foldlM f params) := by
  induction l generalizing s params with
  | nil => exact .inl ⟨0, params, rfl, h, htodo⟩
  | cons a l ih =>
    rw [flatMap_cons, append_assoc] at htodo
    rw [foldlM_cons]
    rcases hf a s params _ h htodo with ⟨n, params', hresult, hfollows, hrest⟩ | ⟨hresult, hdeep⟩
    · rw [hresult]
      have hlen := (@entered_suffix k s n).length_le
      rcases ih hfollows hrest with ⟨m, last, hlast⟩ | ⟨hlast, m, hdeep⟩
      · refine .inl ⟨m + n, last, ?_⟩
        rwa [Function.iterate_add_apply]
      · refine .inr ⟨hlast, m + n, ?_⟩
        rw [Function.iterate_add_apply]
        omega
    · rw [hresult]
      exact .inr ⟨rfl, hdeep⟩

end

end Context

end NetBox.Terminal.CalculateSize
