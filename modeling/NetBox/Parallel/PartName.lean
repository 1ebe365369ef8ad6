import NetBox.Parallel.Operation
import NetBox.Scp.LocalName
import NetBox.Base.Url

/-! # The name of a part

A part of a file is downloaded under an operation mask that is the name of the part, with
a backslash before what would mean something in a mask. The mask is cut at its last dot
and each half is read on its own, which never comes between a backslash and the character
behind it.
-/
namespace NetBox.Parallel.PartName
open Base.Text Scp Parallel.Operation List

def dot : WChar := 46

variable {ch : WChar} {m : UnicodeString}

theorem delimitFileNameMask_append (a b : UnicodeString) :
    delimitFileNameMask (a ++ b) = delimitFileNameMask a ++ delimitFileNameMask b :=
  flatMap_append

theorem dot_not_mem_delimit (h : dot ∉ m) : dot ∉ delimitFileNameMask m := by
  rw [delimitFileNameMask, mem_flatMap]
  rintro ⟨ch, hch, hmem⟩
  split at hmem
  · rcases mem_cons.mp hmem with he | hmem
    · exact absurd he (by decide)
    · exact h (mem_singleton.mp hmem ▸ hch)
  · exact h (mem_singleton.mp hmem ▸ hch)

/-- The mask of a name is a mask: a `*` in it stands behind a backslash. -/
theorem isEffective_delimit (h : m ≠ []) :
    isEffectiveFileNameMask (delimitFileNameMask m) = true := by
  obtain ⟨ch, m, rfl⟩ := exists_cons_of_ne_nil h
  have hhead : ∃ first rest, delimitFileNameMask (ch :: m) = first :: rest ∧ first ≠ 42 := by
    rw [delimitFileNameMask, flatMap_cons]
    split
    · exact ⟨_, _, rfl, by decide⟩
    next hch => exact ⟨_, _, rfl, fun he => hch (by rw [he]; decide)⟩
  obtain ⟨first, rest, heq, hne⟩ := hhead
  simp [isEffectiveFileNameMask, heq, wstr, hne]

/-- Each half of the mask is read as what it was made of. -/
theorem maskFilePart_delimit (rest m : UnicodeString) :
    maskFilePart rest false (delimitFileNameMask m) = m := by
  induction m generalizing rest with
  | nil => rfl
  | cons ch m ih =>
    rw [delimitFileNameMask, flatMap_cons, ← delimitFileNameMask]
    by_cases hch : (wstr "\\*?").contains ch
    · rw [if_pos hch, cons_append, cons_append, nil_append, maskFilePart,
        if_pos rfl, maskFilePart, ih]
    · rw [if_neg hch, cons_append, nil_append]
      have hplain : ch ≠ backslash ∧ ch ≠ 42 ∧ ch ≠ 63 := by
        simpa [show wstr "\\*?" = [backslash, 42, 63] by decide] using hch
      rw [maskFilePart, if_neg hplain.1, if_neg hplain.2.1, if_neg hplain.2.2, ih]

/-- A mask made of a name gives that name to every file, unless it ends with a dot. -/
theorem maskFileName_delimit (fileName : UnicodeString) (hm : m ≠ []) (hdot : m.getLast? ≠ some dot) :
    maskFileName fileName (delimitFileNameMask m) = m := by
  rw [maskFileName, if_pos (isEffective_delimit hm), show wstr "." = [dot] from rfl]
  by_cases hmem : dot ∈ m
  · obtain ⟨a, b, rfl, hb⟩ := exists_last hmem
    have hne : b ≠ [] := by
      rintro rfl
      exact hdot List.getLast?_concat
    have hmask : delimitFileNameMask (a ++ dot :: b) =
        delimitFileNameMask a ++ dot :: delimitFileNameMask b := delimitFileNameMask_append a _
    have hlast := lastDelimiter_last (delimitFileNameMask a) (dot_not_mem_delimit hb)
    have hdrop : (delimitFileNameMask a ++ dot :: delimitFileNameMask b).drop
        ((delimitFileNameMask a).length + 1) = delimitFileNameMask b := by simp
    simp only [hmask, hlast, hdrop, Nat.succ_pos, if_pos, Nat.add_sub_cancel, List.take_left,
      maskFilePart_delimit, ne_eq, hne, not_false_eq_true, List.append_assoc, List.singleton_append]
  · rw [lastDelimiter_absent (dot_not_mem_delimit hmem)]
    exact maskFilePart_delimit fileName m

theorem maskFileName_delimit_part : maskFileName (wstr "a.b") (delimitFileNameMask (wstr "*\\.c")) =
    wstr "*\\.c" :=
  maskFileName_delimit (wstr "a.b") (by decide) (by decide)

end NetBox.Parallel.PartName
