import NetBox.Parallel.Operation

/-! # Lists of collected files

The collector adds a directory before what it finds in it, so in a list every
entry lies right below the root path or right below an earlier directory. On
the local side names are separated by a backslash and hold neither separator;
a remote name holds no slash, but may well hold or end with a backslash.
-/
namespace NetBox.Parallel.Listing
open Base.Text Parallel.Operation List
open Parallel.Operation.ParallelOperation

def separator : Side → WChar
  | .osLocal => backslash
  | .osRemote => slash

def separators : Side → UnicodeString
  | .osLocal => [slash, backslash]
  | .osRemote => [slash]

/-- The name of a file, without its directory. -/
def Bare (side : Side) (name : UnicodeString) : Prop := name ≠ [] ∧ ∀ ch ∈ name, ch ∉ separators side

instance (side : Side) (name : UnicodeString) : Decidable (Bare side name) :=
  decidable_of_iff (name ≠ [] ∧ (name.all fun ch => !(separators side).contains ch) = true)
    (by simp [Bare])

/-- `path` lies in the directory `dir`, not deeper. -/
def ChildOf (side : Side) (dir path : UnicodeString) : Prop :=
  ∃ name, Bare side name ∧ path = dir ++ separator side :: name

/-- `path` lies in `dir` or deeper. -/
def below (side : Side) (dir path : UnicodeString) : Bool :=
  (dir ++ [separator side]).isPrefixOf path

/-- A list the collector makes below the directory `rootDir`; the root path of
the list is this directory with a separator. -/
def Collected (side : Side) (rootDir : UnicodeString) (files : List CollectedFile) : Prop :=
  ∀ (k : Nat) (e : CollectedFile), files[k]? = some e → ChildOf side rootDir e.fileName ∨
    ∃ (j : Nat) (d : CollectedFile), j < k ∧ files[j]? = some d ∧ d.dir = true ∧ ChildOf side d.fileName e.fileName

variable {side : Side} {rootDir dir path a b c : UnicodeString}

theorem separator_mem (side : Side) : separator side ∈ separators side := by
  cases side <;> decide

/-! ## How the code takes a path apart -/

theorem ChildOf.endsIn (h : ChildOf side dir path) : endsIn (separators side) path = false := by
  obtain ⟨name, ⟨hne, hb⟩, rfl⟩ := h
  have hl : (dir ++ separator side :: name).getLast? = some (name.getLast hne) := by
    rw [getLast?_append, getLast?_cons, getLast?_eq_some_getLast hne]
    simp
  simp only [Base.Text.endsIn, hl, contains_eq_mem, decide_eq_false_iff_not]
  exact hb _ (getLast_mem hne)

theorem ChildOf.ne_nil (h : ChildOf side dir path) : path ≠ [] := by
  obtain ⟨name, -, rfl⟩ := h
  simp

theorem ChildOf.withTrailingSlash (h : ChildOf side dir path) :
    withTrailingSlash side path = path ++ [separator side] := by
  have he := h.endsIn
  cases side with
  | osLocal =>
    simp only [separators] at he
    simp [ParallelOperation.withTrailingSlash, includeTrailingBackslash, he, separator]
  | osRemote =>
    simp only [separators] at he
    simp [ParallelOperation.withTrailingSlash, unixIncludeTrailingBackslash, isDelimiter_length, he,
      h.ne_nil, separator]

/-- The scan of `Done` finds what lies below the directory. -/
theorem ChildOf.startsText (h : ChildOf side dir path) (name : UnicodeString) :
    Base.Text.startsText (ParallelOperation.withTrailingSlash side path) name = below side path name := by
  rw [h.withTrailingSlash, Bool.eq_iff_iff, startsText_iff (by simp), below,
    List.isPrefixOf_iff_prefix]

/-- Where `GetNext` looks for the directory of an entry. On the remote side a
separator at the end of the directory is lost. -/
theorem ChildOf.dirPath (h : ChildOf side dir path) (hd : dir ≠ []) :
    dirPath side path = match side with
      | .osLocal => dir
      | .osRemote => excludeTrailingBackslash dir := by
  obtain ⟨name, ⟨-, hb⟩, rfl⟩ := h
  cases side with
  | osLocal =>
    have hl : lastDelimiter [slash, backslash] (dir ++ backslash :: name) = dir.length + 1 :=
      lastDelimiter_split dir (by simp) hb
    have hpos := length_pos_iff.mpr hd
    simp only [ParallelOperation.dirPath, extractFileDir, separator, hl]
    rw [if_pos (by omega)]
    have ht : (dir ++ backslash :: name).take (dir.length + 1) = dir ++ [backslash] := by
      rw [append_cons]
      exact take_left' (by simp)
    rw [ht]
    simp [excludeTrailingBackslash, Base.Text.endsIn]
  | osRemote =>
    have hn : slash ∉ name := fun hm => hb slash hm (by simp [separators])
    simp only [ParallelOperation.dirPath, separator]
    rw [unixExtractFileDir_join dir hn, if_neg hd]

/-- A directory of the list is looked for under the key it is stored under. -/
theorem ChildOf.dirPath_child (h : ChildOf side a b) (h' : ChildOf side b c) :
    ParallelOperation.dirPath side c = excludeTrailingBackslash b := by
  rw [h'.dirPath h.ne_nil]
  cases side with
  | osLocal =>
    have he := h.endsIn
    simp only [separators] at he
    simp [excludeTrailingBackslash, he]
  | osRemote => rfl

/-! ## What lies below what -/

theorem below_iff : below side dir path = true ↔ dir ++ [separator side] <+: path := by
  rw [below, List.isPrefixOf_iff_prefix]

theorem below_trans (h : below side a b = true) (h' : below side b c = true) :
    below side a c = true := by
  rw [below_iff] at *
  exact h.trans ((prefix_append b _).trans h')

theorem ChildOf.below (h : ChildOf side dir path) : below side dir path = true := by
  obtain ⟨name, -, rfl⟩ := h
  exact below_iff.mpr ⟨name, by simp⟩

theorem ChildOf.length_lt (h : ChildOf side dir path) : dir.length + 1 < path.length := by
  obtain ⟨name, ⟨hne, -⟩, rfl⟩ := h
  have := length_pos_iff.mpr hne
  simp only [length_append, length_cons]
  omega

/-- What lies below `a` and right below `b`: then `b` is `a` or below it. -/
theorem ChildOf.below_parent (h : ChildOf side b path) (hb : Listing.below side a path = true) :
    a = b ∨ Listing.below side a b = true := by
  obtain ⟨name, ⟨-, hbare⟩, rfl⟩ := h
  have hp := below_iff.mp hb
  have ⟨rest, hrest⟩ := hp
  -- the separator after `a` is not one of the name's
  have hle : a.length ≤ b.length := by
    by_contra hgt
    have hs : (b ++ separator side :: name)[a.length]? = some (separator side) := by
      rw [← hrest]; simp
    rw [getElem?_append_right (by omega),
      show a.length - b.length = (a.length - b.length - 1) + 1 by omega,
      getElem?_cons_succ] at hs
    exact hbare _ (mem_of_getElem? hs) (separator_mem side)
  rcases Nat.lt_or_eq_of_le hle with hlt | he
  · right
    rw [below_iff]
    exact prefix_of_prefix_length_le hp (prefix_append b _) (by simp; omega)
  · left
    have ha : a <+: b ++ separator side :: name := (prefix_append a _).trans hp
    exact (prefix_of_prefix_length_le ha (prefix_append b _) hle).eq_of_length he

/-! ## Entries of a list -/

variable {files : List CollectedFile}

theorem Collected.childOf (h : Collected side rootDir files) {e : CollectedFile} (he : e ∈ files) :
    ∃ dir, ChildOf side dir e.fileName := by
  obtain ⟨k, hk⟩ := mem_iff_getElem?.mp he
  rcases h k e hk with h | ⟨_, d, _, _, _, h⟩
  · exact ⟨_, h⟩
  · exact ⟨_, h⟩

theorem Collected.length_lt (h : Collected side rootDir files) :
    ∀ (k : Nat) (e : CollectedFile), files[k]? = some e → rootDir.length + 1 < e.fileName.length := by
  intro k
  induction k using Nat.strongRecOn with
  | _ k ih =>
    intro e he
    rcases h k e he with hr | ⟨j, d, hj, hd, -, hc⟩
    · exact hr.length_lt
    · have := ih j hj d hd
      have := hc.length_lt
      omega

/-- Entries right below the root have no directory of the list above them. -/
theorem Collected.not_below_top (h : Collected side rootDir files) {i : Nat} {q : CollectedFile}
    (hq : files[i]? = some q) (hp : ChildOf side rootDir path) :
    below side q.fileName path = false := by
  rw [Bool.eq_false_iff]
  intro hb
  have hlen := h.length_lt i q hq
  rcases hp.below_parent hb with he | hb'
  · rw [he] at hlen; omega
  · have := (below_iff.mp hb').length_le
    simp only [length_append, length_singleton] at this
    omega

/-- An entry below a directory of the list has an ancestor, or is one itself,
that lies right below the directory and is not listed after it. -/
theorem Collected.child_of_below (h : Collected side rootDir files) {i : Nat} {q : CollectedFile}
    (hq : files[i]? = some q) :
    ∀ (k : Nat) (x : CollectedFile), files[k]? = some x → below side q.fileName x.fileName = true →
      ∃ j e, j ≤ k ∧ files[j]? = some e ∧ ChildOf side q.fileName e.fileName ∧
        (e = x ∨ below side e.fileName x.fileName = true) := by
  intro k
  induction k using Nat.strongRecOn with
  | _ k ih =>
    intro x hx hb
    rcases h k x hx with hr | ⟨j, d, hj, hd, -, hc⟩
    · rw [h.not_below_top hq hr] at hb
      cases hb
    · rcases hc.below_parent hb with he | hb'
      · exact ⟨k, x, Nat.le_refl k, hx, he ▸ hc, .inl rfl⟩
      · obtain ⟨j', e, hj', he, hce, hor⟩ := ih j hj d hd hb'
        refine ⟨j', e, by omega, he, hce, .inr ?_⟩
        rcases hor with rfl | hbe
        · exact hc.below
        · exact below_trans hbe hc.below

end NetBox.Parallel.Listing
