import NetBox.Base.UnixPath
import NetBox.Base.Url
import NetBox.Lib.Segments

/-! # How a relative path is resolved

`AbsolutePath` of Common.cpp works on the text of a path: one loop takes out every
`/name/..` and a second one every `/.`. On the components of the path this is a
walk with a stack, in which `.` and empty components are put on the stack like
names and a `..` at the root drops the whole path. It is set against the
resolution of the components as a POSIX system does it.
-/
namespace NetBox.Base.Text
open Lib.Edit Lib.Segments List

abbrev Component := UnicodeString

def thisDirectory : Component := wstr "."
def parentDirectory : Component := wstr ".."

/-- A component that stands for an entry of a directory. -/
def IsName (c : Component) : Prop := c ≠ [] ∧ c ≠ thisDirectory ∧ c ≠ parentDirectory

instance (c : Component) : Decidable (IsName c) := by unfold IsName; infer_instance

/-- The absolute path of these components. -/
def absolute (components : List Component) : UnicodeString :=
  if components = [] then [slash] else started slash components

/-- The names that are left of a path, when `way` leads to where it starts, the
last name first. At the root `..` stays there. -/
def resolve (way : List Component) : List Component → List Component
  | [] => way.reverse
  | c :: rest =>
    if c = [] ∨ c = thisDirectory then resolve way rest
    else if c = parentDirectory then resolve way.tail rest
    else resolve (c :: way) rest

/-- What the first loop makes of the components. -/
def climb (way : List Component) : List Component → List Component
  | [] => way.reverse
  | c :: rest =>
    if c = parentDirectory then
      match way with
      | [] => []
      | _ :: way => climb way rest
    else climb (c :: way) rest

theorem climb_root (rest : List Component) : climb [] (parentDirectory :: rest) = [] := by
  rw [climb, if_pos rfl]

theorem climb_up (top : Component) (way rest : List Component) :
    climb (top :: way) (parentDirectory :: rest) = climb way rest := by
  rw [climb, if_pos rfl]

variable {c : Component}

theorem climb_down (h : c ≠ parentDirectory) (way rest : List Component) :
    climb way (c :: rest) = climb (c :: way) rest := by
  cases way <;> rw [climb, if_neg h]

/-! ## A component in the text -/

theorem pos_cons_of_not_start {sub str : UnicodeString} {a : WChar} (h : ¬ sub <+: a :: str) :
    pos sub (a :: str) = if pos sub str = 0 then 0 else pos sub str + 1 := by
  rw [pos, if_neg (mt List.isPrefixOf_iff_prefix.mp h)]
  cases pos sub str <;> rfl

theorem pos_skip {sub c : UnicodeString} (hc : slash ∉ c) (str : UnicodeString) :
    pos (slash :: sub) (c ++ str) =
      if pos (slash :: sub) str = 0 then 0 else c.length + pos (slash :: sub) str := by
  induction c with
  | nil => simp
  | cons a c ih =>
    obtain ⟨ha, hc⟩ := not_or.mp (mt mem_cons.mpr hc)
    have hstart : ¬ slash :: sub <+: a :: (c ++ str) := by simp [ha]
    rw [cons_append, pos_cons_of_not_start hstart, ih hc, length_cons]
    by_cases hpos : pos (slash :: sub) str = 0
    · simp [hpos]
    · simp only [hpos, if_false]
      rw [if_neg (by omega)]
      omega

variable {name : Component} {components before after : List Component}

theorem startsWith_component {name c : Component} (hname : slash ∉ name) (hc : slash ∉ c)
    (str : UnicodeString) : name ++ [slash] <+: c ++ slash :: str ↔ name = c := by
  induction name generalizing c with
  | nil =>
    cases c with
    | nil => simp
    | cons a c =>
      obtain ⟨ha, -⟩ := not_or.mp (mt mem_cons.mpr hc)
      simp [ha]
  | cons a name ih =>
    obtain ⟨ha, hname⟩ := not_or.mp (mt mem_cons.mpr hname)
    cases c with
    | nil => simp [Ne.symm ha]
    | cons b c =>
      obtain ⟨-, hc⟩ := not_or.mp (mt mem_cons.mpr hc)
      simp [ih hname hc]

/-- The text of a path, with a slash at the end. -/
def pathText (components : List Component) : UnicodeString := started slash components ++ [slash]

def SlashFree (components : List Component) : Prop := ∀ c ∈ components, slash ∉ c

/-- A component between its slashes. -/
def slashed (name : Component) : UnicodeString := slash :: (name ++ [slash])

theorem pathText_cons (c : Component) (rest : List Component) :
    pathText (c :: rest) = slash :: (c ++ pathText rest) := by
  simp [pathText]

theorem slashed_prefix_iff (hname : slash ∉ name) (hc : slash ∉ c) (rest : List Component) :
    slashed name <+: pathText (c :: rest) ↔ name = c := by
  have hrest : pathText rest = slash :: ended slash rest := started_concat_sep rest
  rw [slashed, pathText_cons, prefix_cons_inj, hrest]
  exact startsWith_component hname hc _

theorem pos_pathText_cons (hname : slash ∉ name) (hc : slash ∉ c) (hne : name ≠ c)
    (rest : List Component) :
    pos (slashed name) (pathText (c :: rest)) =
      if pos (slashed name) (pathText rest) = 0 then 0
      else c.length + 1 + pos (slashed name) (pathText rest) := by
  have hstart := mt (slashed_prefix_iff hname hc rest).mp hne
  rw [pathText_cons] at hstart ⊢
  rw [pos_cons_of_not_start hstart, slashed, pos_skip hc, ← slashed]
  by_cases hpos : pos (slashed name) (pathText rest) = 0
  · simp [hpos]
  · simp only [hpos, if_false]
    rw [if_neg (by omega)]
    omega

theorem pos_pathText_absent (hname : slash ∉ name) (hfree : SlashFree components)
    (h : name ∉ components) : pos (slashed name) (pathText components) = 0 := by
  induction components with
  | nil =>
    have hlen : ¬ slashed name <+: [slash] := fun h => by simpa [slashed] using h.length_le
    rw [pathText, started_nil, nil_append, pos_cons_of_not_start hlen]
    simp [pos, slashed]
  | cons c rest ih =>
    obtain ⟨hc, hfree⟩ := forall_mem_cons.mp hfree
    obtain ⟨hne, h⟩ := not_or.mp (mt mem_cons.mpr h)
    rw [pos_pathText_cons hname hc hne, ih hfree h, if_pos rfl]

theorem pos_pathText_found (hname : slash ∉ name) (hfree : SlashFree before)
    (h : name ∉ before) (after : List Component) :
    pos (slashed name) (pathText (before ++ name :: after)) =
      (started slash before).length + 1 := by
  induction before with
  | nil =>
    have hstart := (slashed_prefix_iff hname hname after).mpr rfl
    rw [nil_append, pathText_cons] at *
    rw [pos, if_pos (List.isPrefixOf_iff_prefix.mpr hstart)]
    rfl
  | cons c before ih =>
    obtain ⟨hc, hfree⟩ := forall_mem_cons.mp hfree
    obtain ⟨hne, h⟩ := not_or.mp (mt mem_cons.mpr h)
    rw [cons_append, pos_pathText_cons hname hc hne, ih hfree h,
      if_neg (Nat.succ_ne_zero _), started_cons, length_append, length_cons]
    omega

/-! ## The two loops -/

theorem slashed_parentDirectory : wstr "/../" = slashed parentDirectory := rfl

theorem slashed_thisDirectory : wstr "/./" = slashed thisDirectory := rfl

theorem slash_not_mem_parentDirectory : slash ∉ parentDirectory := by decide

theorem slash_not_mem_thisDirectory : slash ∉ thisDirectory := by decide

theorem removeParent_none (hfree : SlashFree components) (h : parentDirectory ∉ components) :
    removeParent (pathText components) = none := by
  rw [removeParent, slashed_parentDirectory,
    pos_pathText_absent slash_not_mem_parentDirectory hfree h]

theorem removeParent_root (after : List Component) :
    removeParent (pathText (parentDirectory :: after)) = some (pathText []) := by
  have hpos : pos (slashed parentDirectory) (pathText (parentDirectory :: after)) = 1 :=
    pos_pathText_found slash_not_mem_parentDirectory (by simp [SlashFree]) not_mem_nil after
  rw [removeParent, slashed_parentDirectory, hpos]
  rfl

theorem removeParent_step (hfree : SlashFree (before ++ [c])) (h : parentDirectory ∉ before ++ [c])
    (after : List Component) :
    removeParent (pathText (before ++ c :: parentDirectory :: after)) =
      some (pathText (before ++ after)) := by
  have hc : slash ∉ c := hfree c (by simp)
  have hsplit : before ++ c :: parentDirectory :: after =
      before ++ [c] ++ parentDirectory :: after := by simp
  have hstart : started slash (before ++ [c]) = started slash before ++ slash :: c := by
    simp [started_append]
  have hpos : pos (slashed parentDirectory) (pathText (before ++ c :: parentDirectory :: after)) =
      (started slash before).length + c.length + 2 := by
    rw [hsplit, pos_pathText_found slash_not_mem_parentDirectory hfree h, hstart,
      length_append, length_cons]
    rfl
  have htext : pathText (before ++ c :: parentDirectory :: after) =
      started slash before ++ (slash :: c ++ (slash :: parentDirectory ++ pathText after)) := by
    simp [pathText, started_append]
  have htake : (pathText (before ++ c :: parentDirectory :: after)).take
      ((started slash before).length + c.length + 1) = started slash before ++ slash :: c := by
    rw [htext, ← append_assoc]
    exact take_left' (by simp; omega)
  rw [removeParent, slashed_parentDirectory, hpos]
  simp only [htake, lastDelimiter_last _ hc]
  rw [htext, Nat.add_sub_cancel, deleteAt_here, deleteAt_zero, ← append_assoc (slash :: c),
    drop_left' (by simp [parentDirectory, wstr]; omega)]
  simp [pathText, started_append]

theorem removeThis_none (hfree : SlashFree components) (h : thisDirectory ∉ components) :
    removeThis (pathText components) = none := by
  rw [removeThis, slashed_thisDirectory,
    pos_pathText_absent slash_not_mem_thisDirectory hfree h]

theorem removeThis_step (hfree : SlashFree before) (h : thisDirectory ∉ before)
    (after : List Component) :
    removeThis (pathText (before ++ thisDirectory :: after)) = some (pathText (before ++ after)) := by
  have htext : pathText (before ++ thisDirectory :: after) =
      started slash before ++ (slash :: thisDirectory ++ pathText after) := by
    simp [pathText, started_append]
  rw [removeThis, slashed_thisDirectory, pos_pathText_found slash_not_mem_thisDirectory hfree h]
  simp only [htext, deleteAt_here, deleteAt_zero]
  rw [drop_left' (by rfl)]
  simp [pathText, started_append]

theorem climb_of_not_mem {way rest : List Component} (h : parentDirectory ∉ before) :
    climb way (before ++ rest) = climb (before.reverse ++ way) rest := by
  induction before generalizing way with
  | nil => rfl
  | cons c before ih =>
    obtain ⟨hne, h⟩ := not_or.mp (mt mem_cons.mpr h)
    rw [cons_append, climb_down (Ne.symm hne), ih h]
    simp

theorem climb_self (h : parentDirectory ∉ components) : climb [] components = components := by
  have hrest : climb [] (components ++ []) = climb (components.reverse ++ []) [] :=
    climb_of_not_mem h
  simpa [climb] using hrest

/-- Nothing but the components themselves, and no `..` of theirs. -/
theorem mem_climb {way rest : List Component} (h : c ∈ climb way rest) :
    c ∈ way ∨ (c ∈ rest ∧ c ≠ parentDirectory) := by
  induction rest generalizing way with
  | nil => exact .inl (mem_reverse.mp h)
  | cons d rest ih =>
    by_cases hd : d = parentDirectory
    · subst hd
      cases way with
      | nil => rw [climb_root] at h; cases h
      | cons top way =>
        rw [climb_up] at h
        rcases ih h with hway | ⟨hrest, hne⟩
        · exact .inl (mem_cons_of_mem _ hway)
        · exact .inr ⟨mem_cons_of_mem _ hrest, hne⟩
    · rw [climb_down hd] at h
      rcases ih h with hway | ⟨hrest, hne⟩
      · rcases mem_cons.mp hway with rfl | hway
        · exact .inr ⟨mem_cons_self, hd⟩
        · exact .inl hway
      · exact .inr ⟨mem_cons_of_mem _ hrest, hne⟩

variable {path : UnicodeString}

theorem whileFound_none {remove : UnicodeString → Option UnicodeString} (h : remove path = none)
    (fuel : Nat) : whileFound remove fuel path = path := by
  cases fuel with
  | zero => rfl
  | succ fuel => rw [whileFound, h]

theorem SlashFree.append (h : SlashFree (before ++ after)) : SlashFree before ∧ SlashFree after :=
  forall_mem_append.mp h

/-- The first loop walks up at every `..`. -/
theorem whileFound_removeParent {fuel : Nat} (hfree : SlashFree components)
    (hfuel : components.length ≤ fuel) :
    whileFound removeParent fuel (pathText components) = pathText (climb [] components) := by
  induction fuel generalizing components with
  | zero =>
    obtain rfl := length_eq_zero_iff.mp (Nat.le_zero.mp hfuel)
    rfl
  | succ fuel ih =>
    by_cases hmem : parentDirectory ∈ components
    · obtain ⟨before, after, rfl, hbefore⟩ := eq_append_cons_of_mem hmem
      rcases eq_nil_or_concat before with rfl | ⟨front, c, rfl⟩
      · rw [nil_append, whileFound, removeParent_root]
        have hroot : removeParent (pathText []) = none :=
          removeParent_none (by simp [SlashFree]) not_mem_nil
        rw [climb_root]
        exact whileFound_none hroot fuel
      · rw [concat_eq_append] at *
        have hclimb : climb [] (front ++ [c] ++ parentDirectory :: after) =
            climb [] (front ++ after) := by
          rw [climb_of_not_mem hbefore, climb_of_not_mem fun h => hbefore (by simp [h])]
          simp [climb]
        have hkeep : SlashFree (front ++ after) := fun d hd => hfree d (by
          rcases mem_append.mp hd with hd | hd <;> simp [hd])
        have hsplit : front ++ [c] ++ parentDirectory :: after =
            front ++ c :: parentDirectory :: after := by simp
        rw [hclimb, hsplit, whileFound, removeParent_step hfree.append.1 hbefore]
        refine ih hkeep ?_
        simp only [length_append, length_cons] at hfuel ⊢
        omega
    · rw [whileFound_none (removeParent_none hfree hmem), climb_self hmem]

/-- The second loop leaves out every `.`. -/
theorem whileFound_removeThis {fuel : Nat} (hfree : SlashFree components)
    (hfuel : components.length ≤ fuel) :
    whileFound removeThis fuel (pathText components) =
      pathText (components.filter (· ≠ thisDirectory)) := by
  induction fuel generalizing components with
  | zero =>
    obtain rfl := length_eq_zero_iff.mp (Nat.le_zero.mp hfuel)
    rfl
  | succ fuel ih =>
    by_cases hmem : thisDirectory ∈ components
    · obtain ⟨before, after, rfl, hbefore⟩ := eq_append_cons_of_mem hmem
      have hkeep : SlashFree (before ++ after) := fun d hd => hfree d (by
        rcases mem_append.mp hd with hd | hd <;> simp [hd])
      rw [whileFound, removeThis_step hfree.append.1 hbefore]
      refine (ih hkeep ?_).trans ?_
      · simp only [length_append, length_cons] at hfuel ⊢
        omega
      · simp
    · have hall : components.filter (· ≠ thisDirectory) = components := by
        rw [filter_eq_self]
        intro c hc
        simpa using fun he : c = thisDirectory => hmem (he ▸ hc)
      rw [whileFound_none (removeThis_none hfree hmem), hall]

/-! ## From the text to the components and back -/

theorem exclude_pathText (components : List Component) :
    unixExcludeTrailingBackslash (pathText components) = absolute components := by
  cases components with
  | nil => rfl
  | cons c rest =>
    have hroot : pathText (c :: rest) ≠ [slash] := by
      rw [pathText_cons, pathText]
      simp
    have hend : isDelimiter [slash] (pathText (c :: rest)) (pathText (c :: rest)).length = true := by
      rw [isDelimiter_length, endsIn, pathText, getLast?_concat]
      rfl
    have hwindows : isUnixStyleWindowsPath (pathText (c :: rest)) = false := by
      rw [pathText_cons]
      rcases c ++ pathText rest with _ | ⟨_, _ | ⟨_, _⟩⟩
      · rfl
      · rfl
      · simp [isUnixStyleWindowsPath, isLetter, slash]
    have hdrop : (pathText (c :: rest)).dropLast = started slash (c :: rest) :=
      dropLast_concat
    have hne : started slash (c :: rest) ≠ [] := by simp
    have hnil : pathText (c :: rest) ≠ [] := by simp [pathText]
    simp only [unixExcludeTrailingBackslash, hwindows, hdrop, hend, absolute]
    simp [hroot, hnil]

/-- A directory of names, none of them with a slash. -/
structure Directory (components : List Component) : Prop where
  names : ∀ c ∈ components, IsName c
  free : SlashFree components

theorem include_absolute (h : Directory components) :
    unixIncludeTrailingBackslash (absolute components) = pathText components := by
  rcases eq_nil_or_concat components with rfl | ⟨front, last, rfl⟩
  · rfl
  · rw [concat_eq_append] at *
    have hlast : endsIn [slash] (started slash (front ++ [last])) = false := by
      obtain ⟨init, ch, hch⟩ := (eq_nil_or_concat last).resolve_left (h.names last (by simp)).1
      have hfree : slash ∉ last := h.free last (by simp)
      rw [hch, concat_eq_append] at hfree ⊢
      have hne : slash ≠ ch := fun he => hfree (by simp [he])
      simp [started_append, endsIn, getLast?_append, getLast?_cons, Ne.symm hne]
    have habs : absolute (front ++ [last]) = started slash (front ++ [last]) := by
      simp [absolute]
    have hne : started slash (front ++ [last]) ≠ [] := by simp [started_append]
    rw [habs, unixIncludeTrailingBackslash, isDelimiter_length, hlast]
    simp [pathText, hne]

theorem include_combine (h : Directory components) (hpath : path ≠ []) :
    unixIncludeTrailingBackslash (unixCombinePaths (absolute components) path) =
      pathText (components ++ cut slash path) := by
  have htext : pathText (components ++ cut slash path) =
      started slash components ++ slash :: ended slash (cut slash path) := by
    rw [pathText, started_append, append_assoc, started_concat_sep]
  have hlast : (pathText components ++ path).getLast? = path.getLast? :=
    getLast?_append_of_ne_nil _ hpath
  have hends : isDelimiter [slash] (pathText components ++ path) (pathText components ++ path).length =
      decide ((split slash path).2 = []) := by
    rw [isDelimiter_length, endsIn, hlast, Bool.eq_iff_iff, decide_eq_true_iff,
      split_snd_eq_nil_iff]
    cases path.getLast? <;> simp [hpath]
  rw [unixCombinePaths, include_absolute h, htext, ended_cut, unixIncludeTrailingBackslash, hends]
  by_cases hsplit : (split slash path).2 = [] <;> simp [hsplit, pathText]

theorem slashFree_cut (path : UnicodeString) : SlashFree (cut slash path) := by
  obtain ⟨segments, last, hsegments, hlast, -, hsplit⟩ := exists_split slash path
  intro c hc
  rw [cut, hsplit] at hc
  split at hc
  · exact hsegments c hc
  · rcases mem_append.mp hc with hc | hc
    · exact hsegments c hc
    · rwa [mem_singleton.mp hc]

theorem SlashFree.climb (h : SlashFree components) : SlashFree (climb [] components) := by
  intro c hc
  rcases mem_climb hc with hc | ⟨hc, -⟩
  · cases hc
  · exact h c hc

/-- The loops of a call have come to an end: there is nothing more to take out. -/
def LoopsEnd (base path : UnicodeString) : Prop :=
  let result := unixIncludeTrailingBackslash (unixCombinePaths base path)
  let first := whileFound removeParent result.length result
  removeParent first = none ∧ removeThis (whileFound removeThis first.length first) = none

theorem length_le_pathText (components : List Component) :
    components.length ≤ (pathText components).length := by
  rw [pathText, length_append]
  exact Nat.le_add_right_of_le (length_le_started components)

/-- `AbsolutePath` on components, for a path that does not begin with a slash. -/
theorem absolutePath_eq (h : Directory components) (hpath : path ≠ [])
    (hrelative : path.head? ≠ some slash) :
    LoopsEnd (absolute components) path ∧
    absolutePath (absolute components) path =
      absolute ((climb [] (components ++ cut slash path)).filter (· ≠ thisDirectory)) := by
  have hfree : SlashFree (components ++ cut slash path) :=
    forall_mem_append.mpr ⟨h.free, slashFree_cut path⟩
  have hfirst := whileFound_removeParent hfree (length_le_pathText _)
  have hsecond := whileFound_removeThis hfree.climb (length_le_pathText _)
  constructor
  · rw [LoopsEnd, include_combine h hpath]
    simp only [hfirst, hsecond]
    refine ⟨removeParent_none hfree.climb fun hmem => ?_, removeThis_none ?_ (by simp)⟩
    · rcases mem_climb hmem with hmem | ⟨-, hne⟩
      · cases hmem
      · exact hne rfl
    · exact fun c hc => hfree.climb c (mem_of_mem_filter hc)
  · cases path with
    | nil => exact absurd rfl hpath
    | cons ch path =>
      have hch : ch ≠ slash := fun he => hrelative (by simp [he])
      rw [absolutePath, if_neg hch, include_combine h hpath]
      simp only [hfirst, hsecond]
      exact exclude_pathText _

end NetBox.Base.Text
