import NetBox.Base.UnixPath
import NetBox.Base.Url

/-! # The common directory of a selection

`UnixExtractCommonPath` of Common.cpp takes the directory of the first path and
shortens it until every path begins with it. It tells whether there is such a
directory. The flag is cleared only at the root or at a drive, so that it stays
when the first directory of a relative path is given up.
-/
namespace NetBox.Base.Text

open List

def EndsInSlash (path : UnicodeString) : Prop := path.getLast? = some slash

/-- One directory less. Neither the root nor a drive has one. -/
def parentPath (path : UnicodeString) : UnicodeString :=
  unixExtractFilePath (unixExcludeTrailingBackslash path)

theorem length_extract_le (path : UnicodeString) :
    (unixExtractFilePath path).length ≤ path.length := length_take_le' _ _

theorem length_exclude_le {path : UnicodeString} (h : path ≠ []) :
    (unixExcludeTrailingBackslash path).length ≤ path.length := by
  have hpos : 1 ≤ path.length := length_pos_of_ne_nil h
  have hroot : ∀ result : UnicodeString, result.length ≤ path.length →
      (if result.isEmpty then [slash] else result).length ≤ path.length := by
    intro result hle
    split
    · exact hpos
    · exact hle
  refine hroot _ ?_
  split
  · exact Nat.le_refl _
  · rw [length_dropLast]
    exact Nat.sub_le _ _

/-- The inner loop: the path is shortened for one file. -/
def shorten (file path : UnicodeString) (result : Bool) : UnicodeString × Bool :=
  if path = [] ∨ file.take path.length = path then (path, result)
  else if (parentPath path).length = path.length then ([], false)
  else shorten file (parentPath path) result
termination_by path.length
decreasing_by
  have hne : path ≠ [] := fun h => ‹¬ (path = [] ∨ _)› (.inl h)
  exact Nat.lt_of_le_of_ne ((length_extract_le _).trans (length_exclude_le hne)) ‹_›

/-- `UnixExtractCommonPath` of the paths of a list that is not empty. -/
def unixExtractCommonPath (first : UnicodeString) (rest : List UnicodeString) :
    UnicodeString × Bool :=
  let path := unixExtractFilePath first
  if path = [] then (path, false)
  else rest.foldl (fun state file => shorten file state.1 state.2) (path, true)

/-- The longest text with a slash at the end that every file begins with, or
nothing. -/
structure IsCommonPath (files : List UnicodeString) (path : UnicodeString) : Prop where
  ended : path = [] ∨ EndsInSlash path
  common : ∀ file ∈ files, path <+: file
  longest : ∀ other, EndsInSlash other → (∀ file ∈ files, other <+: file) → other <+: path

/-! ## Directories of a path -/

theorem endsInSlash_concat (front : UnicodeString) : EndsInSlash (front ++ [slash]) :=
  getLast?_concat

theorem EndsInSlash.eq {path : UnicodeString} (h : EndsInSlash path) :
    ∃ front, path = front ++ [slash] := by
  obtain ⟨front, hfront⟩ := getLast?_eq_some_iff.mp h
  exact ⟨front, hfront⟩

/-- A directory of a path, when no slash follows in the path, is the last one. -/
theorem EndsInSlash.prefix_of_last {other front back : UnicodeString} (h : EndsInSlash other)
    (hback : slash ∉ back) (hother : other <+: front ++ slash :: back) :
    other <+: front ++ [slash] := by
  have hsplit : front ++ slash :: back = front ++ [slash] ++ back := by simp
  rw [hsplit] at hother
  by_cases hle : other.length ≤ (front ++ [slash]).length
  · exact prefix_of_prefix_length_le hother (prefix_append _ _) hle
  · obtain ⟨more, rfl⟩ := prefix_of_prefix_length_le (prefix_append (front ++ [slash]) back)
      hother (by omega)
    rw [prefix_append_right_inj] at hother
    have hne : more ≠ [] := by
      rintro rfl
      simp at hle
    rw [EndsInSlash, getLast?_append_of_ne_nil _ hne] at h
    exact absurd (hother.subset (mem_of_getLast? h)) hback

theorem extract_isCommonPath (path : UnicodeString) :
    IsCommonPath [path] (unixExtractFilePath path) := by
  rw [unixExtractFilePath]
  by_cases hmem : slash ∈ path
  · obtain ⟨front, back, rfl, hback⟩ := exists_last hmem
    have htake : (front ++ slash :: back).take (front.length + 1) = front ++ [slash] := by
      rw [take_append, take_of_length_le (by omega)]
      simp
    rw [lastDelimiter_last front hback, htake]
    refine ⟨.inr (endsInSlash_concat front), ?_, fun other hother hfiles => ?_⟩
    · simp
    · exact hother.prefix_of_last hback (hfiles _ (mem_singleton.mpr rfl))
  · rw [lastDelimiter_absent hmem, take_zero]
    refine ⟨.inl rfl, by simp, fun other hother hfiles => ?_⟩
    have hother' := mem_of_getLast? hother
    exact absurd ((hfiles path (mem_singleton.mpr rfl)).subset hother') hmem

/-- The root or a drive: what has no directory above it. -/
def RootLike (path : UnicodeString) : Prop :=
  path = [slash] ∨ (path.length = 3 ∧ isUnixStyleWindowsPath path = true)

instance (path : UnicodeString) : Decidable (RootLike path) := by
  unfold RootLike; infer_instance

theorem exclude_endsInSlash (front : UnicodeString) :
    unixExcludeTrailingBackslash (front ++ [slash]) =
      if RootLike (front ++ [slash]) then front ++ [slash] else front := by
  have hend : isDelimiter [slash] (front ++ [slash]) (front ++ [slash]).length = true := by
    rw [isDelimiter_length, endsIn, getLast?_concat]
    rfl
  simp only [unixExcludeTrailingBackslash, hend, RootLike]
  by_cases hfront : front = []
  · subst hfront
    rfl
  · by_cases hdrive : (front ++ [slash]).length = 3 ∧ isUnixStyleWindowsPath (front ++ [slash]) = true
    · simp [hfront, hdrive.1, hdrive.2]
    · rw [length_append, length_singleton, Nat.succ_inj] at hdrive
      simp [hfront, hdrive]

variable {front : UnicodeString}

/-- A path that has no directory above it has one slash, at its end. -/
theorem RootLike.last (h : RootLike (front ++ [slash])) : slash ∉ front := by
  rcases h with h | ⟨hlen, hdrive⟩
  · rw [append_eq_singleton_iff] at h
    simp at h
    simp [h]
  · obtain ⟨a, b, rfl⟩ : ∃ a b, front = [a, b] :=
      length_eq_two.mp (by simpa using hlen)
    simp only [cons_append, nil_append, isUnixStyleWindowsPath, Bool.and_eq_true,
      beq_iff_eq] at hdrive
    obtain ⟨⟨ha, rfl⟩, -⟩ := hdrive
    have hletter : slash ≠ a := by
      rintro rfl
      exact absurd ha (by decide)
    have hcolon : slash ≠ 58 := by decide
    simp [hletter, hcolon]

theorem parentPath_rootLike {path : UnicodeString} (hend : EndsInSlash path) (h : RootLike path) :
    parentPath path = path := by
  obtain ⟨front, rfl⟩ := hend.eq
  rw [parentPath, exclude_endsInSlash, if_pos h, unixExtractFilePath,
    lastDelimiter_last front not_mem_nil]
  exact take_of_length_le (by simp)

theorem parentPath_other (h : ¬ RootLike (front ++ [slash])) :
    parentPath (front ++ [slash]) = unixExtractFilePath front := by
  rw [parentPath, exclude_endsInSlash, if_neg h]

/-- The text up to the first slash, with it. -/
def firstDirectory (path : UnicodeString) : UnicodeString := path.take (pos [slash] path)

theorem firstDirectory_eq (h : slash ∉ front) (back : UnicodeString) :
    firstDirectory (front ++ slash :: back) = front ++ [slash] := by
  rw [firstDirectory, pos_split h, take_append, take_of_length_le (by omega)]
  simp

theorem firstDirectory_endsInSlash {path : UnicodeString} (h : slash ∈ path) :
    EndsInSlash (firstDirectory path) := by
  obtain ⟨front, back, rfl, hfront⟩ := exists_first h
  rw [firstDirectory_eq hfront]
  exact endsInSlash_concat front

/-- Every directory of a path begins with the first one. -/
theorem firstDirectory_of_start {other path : UnicodeString} (h : EndsInSlash other)
    (hother : other <+: path) :
    firstDirectory path = firstDirectory other ∧ firstDirectory path <+: other := by
  obtain ⟨front, back, hsplit, hfront⟩ := exists_first (mem_of_getLast? h)
  obtain ⟨more, rfl⟩ := hother
  subst hsplit
  have hmore : front ++ slash :: back ++ more = front ++ slash :: (back ++ more) := by simp
  rw [hmore, firstDirectory_eq hfront, firstDirectory_eq hfront]
  exact ⟨rfl, back, by simp⟩

theorem extract_eq_nil_iff (path : UnicodeString) : unixExtractFilePath path = [] ↔ slash ∉ path := by
  constructor
  · intro h hmem
    obtain ⟨front, back, rfl, -⟩ := exists_first hmem
    have hlongest := (extract_isCommonPath (front ++ slash :: back)).longest (front ++ [slash])
      (endsInSlash_concat front) (by simp)
    rw [h] at hlongest
    simp at hlongest
  · intro h
    rw [unixExtractFilePath, lastDelimiter_absent h, take_zero]

theorem rootLike_of_length_eq {path : UnicodeString} (hend : EndsInSlash path)
    (h : (parentPath path).length = path.length) : RootLike path := by
  by_contra hno
  obtain ⟨front, rfl⟩ := hend.eq
  have hle := length_extract_le front
  rw [← parentPath_other hno, h, length_append, length_singleton] at hle
  omega

/-! ## Shortening for one file -/

theorem IsCommonPath.of_parent {file front path : UnicodeString}
    (hno : ¬ front ++ [slash] <+: file) (hroot : ¬ RootLike (front ++ [slash]))
    (h : IsCommonPath [parentPath (front ++ [slash]), file] path) :
    IsCommonPath [front ++ [slash], file] path := by
  have hextract := extract_isCommonPath front
  rw [parentPath_other hroot] at h
  have hparent : unixExtractFilePath front <+: front ++ [slash] :=
    (hextract.common front (by simp)).trans (prefix_append _ _)
  refine ⟨h.ended, ?_, fun other hother hfiles => h.longest other hother ?_⟩
  · simp only [mem_cons, not_mem_nil, or_false, forall_eq_or_imp, forall_eq]
    exact ⟨(h.common _ (by simp)).trans hparent, h.common file (by simp)⟩
  · -- the path itself is not one of the candidates
    have hpath := hfiles (front ++ [slash]) (by simp)
    have hfile := hfiles file (by simp)
    have hne : other ≠ front ++ [slash] := fun he => hno (he ▸ hfile)
    have hfront : other <+: front := (prefix_concat_iff.mp hpath).resolve_left hne
    have hnext := hextract.longest other hother (by simpa using hfront)
    simpa using ⟨hnext, hfile⟩

/-- One file. The path becomes the longest one that the file begins with too,
and the flag is cleared when that is none and the path led to the root or a drive. -/
theorem shorten_spec {file path : UnicodeString} {result : Bool}
    (hend : path = [] ∨ EndsInSlash path) :
    IsCommonPath [path, file] (shorten file path result).1 ∧
    (shorten file path result).2 =
      if (shorten file path result).1 = [] ∧ path ≠ [] ∧ RootLike (firstDirectory path) then false
      else result := by
  fun_induction shorten file path result with
  | case1 path h =>
    have hfile : path <+: file := by
      rcases h with rfl | h
      · exact List.nil_prefix
      · exact prefix_iff_eq_take.mpr h.symm
    refine ⟨⟨hend, by simpa using hfile, fun other _ hfiles => hfiles path (by simp)⟩, ?_⟩
    rw [if_neg fun h => h.2.1 h.1]
  | case2 path h hlen =>
    obtain ⟨hne, hno⟩ := not_or.mp h
    have hslash := hend.resolve_left hne
    have hroot := rootLike_of_length_eq hslash hlen
    obtain ⟨front, rfl⟩ := hslash.eq
    have hfirst : firstDirectory (front ++ [slash]) = front ++ [slash] :=
      firstDirectory_eq hroot.last []
    refine ⟨⟨.inl rfl, by simp, fun other hother hfiles => ?_⟩, ?_⟩
    · have hpath := (firstDirectory_of_start hother (hfiles (front ++ [slash]) (by simp))).2
      rw [hfirst] at hpath
      exact absurd (prefix_iff_eq_take.mp (hpath.trans (hfiles file (by simp)))).symm hno
    · rw [if_pos ⟨rfl, hne, by rwa [hfirst]⟩]
  | case3 path h hlen ih =>
    obtain ⟨hne, hno⟩ := not_or.mp h
    have hslash := hend.resolve_left hne
    have hroot : ¬ RootLike path := fun hroot => hlen (by rw [parentPath_rootLike hslash hroot])
    obtain ⟨front, rfl⟩ := hslash.eq
    have hparent : parentPath (front ++ [slash]) = unixExtractFilePath front := parentPath_other hroot
    have hextract := extract_isCommonPath front
    obtain ⟨hcommon, hflag⟩ := ih (by rw [hparent]; exact hextract.ended)
    refine ⟨hcommon.of_parent (fun hfile => hno (prefix_iff_eq_take.mp hfile).symm) hroot, ?_⟩
    rw [hflag, hparent]
    by_cases hnil : unixExtractFilePath front = []
    · have hfirst : firstDirectory (front ++ [slash]) = front ++ [slash] :=
        firstDirectory_eq ((extract_eq_nil_iff front).mp hnil) []
      rw [if_neg fun h => h.2.1 hnil, if_neg fun h => hroot (by rw [← hfirst]; exact h.2.2)]
    · have hfirst := (firstDirectory_of_start (hextract.ended.resolve_left hnil)
        ((hextract.common front (by simp)).trans (prefix_append front [slash]))).1
      rw [hfirst]
      simp [hnil]

/-! ## All files -/

theorem IsCommonPath.append {files : List UnicodeString} {file path next : UnicodeString}
    (h : IsCommonPath files path) (hnext : IsCommonPath [path, file] next) :
    IsCommonPath (files ++ [file]) next := by
  refine ⟨hnext.ended, fun f hf => ?_, fun other hother hfiles => hnext.longest other hother ?_⟩
  · rcases mem_append.mp hf with hf | hf
    · exact (hnext.common path (by simp)).trans (h.common f hf)
    · exact hnext.common f (by simp [mem_singleton.mp hf])
  · have hpath := h.longest other hother fun f hf => hfiles f (mem_append_left _ hf)
    simpa using ⟨hpath, hfiles file (by simp)⟩

theorem foldl_shorten_spec (rest : List UnicodeString) {files : List UnicodeString}
    {path : UnicodeString} {result : Bool} (h : IsCommonPath files path) :
    let final := rest.foldl (fun state file => shorten file state.1 state.2) (path, result)
    IsCommonPath (files ++ rest) final.1 ∧
      final.2 = if final.1 = [] ∧ path ≠ [] ∧ RootLike (firstDirectory path) then false
        else result := by
  induction rest generalizing files path result with
  | nil =>
    refine ⟨by simpa using h, ?_⟩
    rw [foldl_nil, if_neg fun h => h.2.1 h.1]
  | cons file rest ih =>
    obtain ⟨hshort, hshortflag⟩ := @shorten_spec file path result h.ended
    rw [foldl_cons]
    cases hs : shorten file path result with
    | mk next flag =>
    rw [hs] at hshort hshortflag
    obtain ⟨hfinal, hflag⟩ := @ih _ _ flag (h.append hshort)
    rw [append_assoc, singleton_append] at hfinal
    dsimp only at hshort hshortflag hfinal hflag ⊢
    generalize rest.foldl _ (next, flag) = final at hfinal hflag
    refine ⟨hfinal, ?_⟩
    rw [hflag, hshortflag]
    by_cases hnil : next = []
    · -- nothing is left for the files behind it
      have hempty : final.1 = [] := by
        refine hfinal.ended.resolve_right fun hslash => ?_
        have hle := (h.append hshort).longest _ hslash fun f hf => hfinal.common f (by
          rcases mem_append.mp hf with hf | hf
          · exact mem_append_left _ hf
          · simp [mem_singleton.mp hf])
        rw [hnil, prefix_nil] at hle
        rw [hle] at hslash
        cases hslash
      simp [hnil, hempty]
    · have hslash := hshort.ended.resolve_left hnil
      have hprefix : next <+: path := hshort.common path (by simp)
      have hpath : path ≠ [] := by
        rintro rfl
        exact hnil (prefix_nil.mp hprefix)
      rw [(firstDirectory_of_start hslash hprefix).1]
      simp [hnil, hpath]

/-- The path is always the longest common one, and the flag is right exactly
when the first path has no slash, begins at the root or with a drive, or shares
its first directory with all paths. -/
theorem unixExtractCommonPath_spec (first : UnicodeString) (rest : List UnicodeString) :
    IsCommonPath (first :: rest) (unixExtractCommonPath first rest).1 ∧
    (((unixExtractCommonPath first rest).2 = true ↔ (unixExtractCommonPath first rest).1 ≠ []) ↔
      slash ∉ first ∨ RootLike (firstDirectory first) ∨
        ∀ file ∈ first :: rest, firstDirectory first <+: file) := by
  have hextract := extract_isCommonPath first
  by_cases hmem : slash ∈ first
  · have hne : unixExtractFilePath first ≠ [] := fun h => (extract_eq_nil_iff first).mp h hmem
    have hfirst : firstDirectory first = firstDirectory (unixExtractFilePath first) :=
      (firstDirectory_of_start (hextract.ended.resolve_left hne)
        (hextract.common first (by simp))).1
    obtain ⟨hfinal, hflag⟩ := @foldl_shorten_spec rest _ _ true hextract
    rw [← hfirst] at hflag
    simp only [unixExtractCommonPath, if_neg hne]
    generalize rest.foldl _ (unixExtractFilePath first, true) = final at hfinal hflag
    have hshared : final.1 ≠ [] ↔ ∀ file ∈ first :: rest, firstDirectory first <+: file := by
      constructor
      · intro hpath file hfile
        have hslash := hfinal.ended.resolve_left hpath
        exact (firstDirectory_of_start hslash (hfinal.common first (by simp))).2.trans
          (hfinal.common file hfile)
      · intro hall hnil
        have hslash := firstDirectory_endsInSlash hmem
        have hle := hfinal.longest _ hslash hall
        rw [hnil, List.prefix_nil] at hle
        rw [hle] at hslash
        cases hslash
    refine ⟨hfinal, ?_⟩
    rw [hflag, ← hshared]
    by_cases hroot : RootLike (firstDirectory first) <;> by_cases hnil : final.1 = [] <;>
      simp [hmem, hne, hroot, hnil]
  · have hnil : unixExtractFilePath first = [] := (extract_eq_nil_iff first).mpr hmem
    simp only [unixExtractCommonPath, if_pos hnil]
    refine ⟨⟨hextract.ended, by simp [hnil], fun other hother hfiles => ?_⟩, by simp [hmem, hnil]⟩
    exact hextract.longest other hother (by simpa using hfiles first (by simp))

/-- Two relative paths without a common directory: the flag stays. -/
theorem unixExtractCommonPath_relative :
    unixExtractCommonPath (wstr "a/x") [wstr "b/y"] = ([], true) := by
  have hfirst : unixExtractFilePath (wstr "a/x") = wstr "a/" := by decide
  have hparent : parentPath (wstr "a/") = [] := by decide
  rw [unixExtractCommonPath, hfirst, if_neg (by decide), List.foldl_cons, List.foldl_nil, shorten,
    if_neg (by decide), hparent, if_neg (by decide), shorten, if_pos (.inl rfl)]

end NetBox.Base.Text
