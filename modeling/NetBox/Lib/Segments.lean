import Mathlib.Data.List.Chain
import Mathlib.Data.List.DropRight
import Mathlib.Data.List.TakeWhile

/-! # Texts of segments

A text is split at a separator and put together again. What was put together is
split into the same segments.
-/
namespace NetBox.Lib.Segments

open List

variable {α : Type} {sep ch a : α} {text last front back : List α} {segments : List (List α)}

/-! ## Splitting -/

/-- Every segment with a separator behind it. -/
def ended (sep : α) (segments : List (List α)) : List α := segments.flatMap (· ++ [sep])

@[simp] theorem ended_nil : ended sep [] = [] := rfl

@[simp] theorem ended_cons (segment : List α) (segments : List (List α)) :
    ended sep (segment :: segments) = segment ++ sep :: ended sep segments := by
  simp [ended]

theorem ended_append (segments segments' : List (List α)) :
    ended sep (segments ++ segments') = ended sep segments ++ ended sep segments' :=
  flatMap_append

theorem ended_concat (segments : List (List α)) (segment : List α) :
    ended sep (segments ++ [segment]) = ended sep segments ++ segment ++ [sep] := by
  rw [ended_append, ended_cons, ended_nil, append_assoc]

/-- Every segment with a separator in front of it. -/
def started (sep : α) (segments : List (List α)) : List α := segments.flatMap (sep :: ·)

@[simp] theorem started_nil : started sep [] = [] := rfl

@[simp] theorem started_cons (segment : List α) (segments : List (List α)) :
    started sep (segment :: segments) = sep :: segment ++ started sep segments := by
  simp [started]

theorem started_append (segments segments' : List (List α)) :
    started sep (segments ++ segments') = started sep segments ++ started sep segments' :=
  flatMap_append

theorem started_concat_sep (segments : List (List α)) :
    started sep segments ++ [sep] = sep :: ended sep segments := by
  induction segments with
  | nil => rfl
  | cons segment segments ih => rw [started_cons, append_assoc, ih, ended_cons]; rfl

theorem length_le_started (segments : List (List α)) :
    segments.length ≤ (started sep segments).length := by
  induction segments with
  | nil => exact Nat.zero_le _
  | cons segment segments ih =>
    simp only [started_cons, length_append, length_cons]
    omega

variable [DecidableEq α]

/-- The parts that a separator ends, and what is left behind the last one. -/
def split (sep : α) : List α → List (List α) × List α
  | [] => ([], [])
  | a :: text =>
    let rest := split sep text
    if a = sep then ([] :: rest.1, rest.2)
    else
      match rest.1 with
      | [] => ([], a :: rest.2)
      | segment :: segments => ((a :: segment) :: segments, rest.2)

/-- The segments of a text, of which the last needs no separator. -/
def cut (sep : α) (text : List α) : List (List α) :=
  let parts := split sep text
  if parts.2 = [] then parts.1 else parts.1 ++ [parts.2]

theorem split_last (h : sep ∉ text) : split sep text = ([], text) := by
  induction text with
  | nil => rfl
  | cons a text ih =>
    obtain ⟨ha, htext⟩ := not_or.mp (mt mem_cons.mpr h)
    simp [split, ih htext, Ne.symm ha]

theorem idxOf?_segment (h : sep ∉ front) (back : List α) :
    (front ++ sep :: back).idxOf? sep = some front.length := by
  induction front with
  | nil => simp [idxOf?_cons]
  | cons a front ih =>
    obtain ⟨hne, hmem⟩ := not_or.mp (mt mem_cons.mpr h)
    rw [cons_append, idxOf?_cons, if_neg (by simpa using Ne.symm hne), ih hmem]
    rfl

theorem split_segment (h : sep ∉ front) (back : List α) :
    split sep (front ++ sep :: back) = (front :: (split sep back).1, (split sep back).2) := by
  induction front with
  | nil => simp [split]
  | cons a front ih =>
    obtain ⟨ha, hfront⟩ := not_or.mp (mt mem_cons.mpr h)
    simp [split, ih hfront, Ne.symm ha]

theorem split_ended (h : ∀ segment ∈ segments, sep ∉ segment) (hlast : sep ∉ last) :
    split sep (ended sep segments ++ last) = (segments, last) := by
  induction segments with
  | nil => exact split_last hlast
  | cons segment segments ih =>
    obtain ⟨hsegment, hrest⟩ := forall_mem_cons.mp h
    rw [ended_cons, append_assoc, cons_append, split_segment hsegment, ih hrest]

/-- A text is its parts. -/
theorem exists_split (sep : α) (text : List α) : ∃ segments last,
    (∀ segment ∈ segments, sep ∉ segment) ∧ sep ∉ last ∧ text = ended sep segments ++ last ∧
      split sep text = (segments, last) := by
  induction text with
  | nil => exact ⟨[], [], nofun, not_mem_nil, rfl, rfl⟩
  | cons a text ih =>
    obtain ⟨segments, last, hsegments, hlast, rfl, -⟩ := ih
    by_cases ha : a = sep
    · subst ha
      have hall : ∀ segment ∈ [] :: segments, a ∉ segment :=
        forall_mem_cons.mpr ⟨not_mem_nil, hsegments⟩
      refine ⟨[] :: segments, last, hall, hlast, rfl, ?_⟩
      rw [← split_ended hall hlast]
      rfl
    · cases segments with
      | nil =>
        have hnot : sep ∉ a :: last := not_mem_cons_of_ne_of_not_mem (Ne.symm ha) hlast
        exact ⟨[], a :: last, nofun, hnot, rfl, split_last hnot⟩
      | cons segment segments =>
        obtain ⟨hsegment, hrest⟩ := forall_mem_cons.mp hsegments
        have hall : ∀ segment' ∈ (a :: segment) :: segments, sep ∉ segment' :=
          forall_mem_cons.mpr ⟨not_mem_cons_of_ne_of_not_mem (Ne.symm ha) hsegment, hrest⟩
        refine ⟨(a :: segment) :: segments, last, hall, hlast, rfl, ?_⟩
        rw [← split_ended hall hlast]
        rfl

/-- The segments of a text, ended, are the text itself or with a separator more. -/
theorem ended_cut (sep : α) (text : List α) : ended sep (cut sep text) =
    if (split sep text).2 = [] then text else text ++ [sep] := by
  obtain ⟨segments, last, -, -, rfl, hsplit⟩ := exists_split sep text
  simp only [cut, hsplit]
  split
  next hnil => rw [hnil, append_nil]
  next => rw [ended_concat]

theorem split_snd_eq_nil_iff (sep : α) (text : List α) :
    (split sep text).2 = [] ↔ text = [] ∨ text.getLast? = some sep := by
  obtain ⟨segments, last, -, hlast, rfl, hsplit⟩ := exists_split sep text
  rw [hsplit]
  constructor
  · rintro rfl
    rcases eq_nil_or_concat segments with rfl | ⟨init, s, rfl⟩
    · exact .inl rfl
    · right
      rw [concat_eq_append, append_nil, ended_concat]
      simp
  · intro h
    by_contra hne
    rcases h with h | h
    · exact hne (append_eq_nil_iff.mp h).2
    · rw [getLast?_append_of_ne_nil _ hne] at h
      exact hlast (mem_of_getLast? h)

/-! ## Trimming -/

/-! ## Doubled separators -/

end NetBox.Lib.Segments
