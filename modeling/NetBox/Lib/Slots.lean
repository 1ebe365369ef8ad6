import Mathlib.Data.List.Basic
import Mathlib.Data.List.Nodup

/-! # Items with a tag beside each

A list of items and an array of tags that is at least as long: the tag of an
item stands at its position, and what the array holds past the last item means
nothing. Removing an item moves the tags behind it down one by one.
-/
namespace NetBox.Lib.Slots

open List

variable {τ ι : Type} [Inhabited τ]

def moveDown (tags : List τ) (i : Nat) : List τ :=
  tags.set (i - 1) tags[i]!

/-- Moves the tags behind position `r` of the first `count` down by one. -/
def shiftDown (tags : List τ) (r count : Nat) : List τ :=
  (List.range' (r + 1) (count - (r + 1))).foldl moveDown tags

/-- Writes the tag of the last of `count` items, after making room when the
array is not longer than that. -/
def putLast (tags : List τ) (count : Nat) (tag : τ) : List τ :=
  let tags := if tags.length ≤ count then
      tags ++ List.replicate (count + 10 - tags.length) default
    else tags
  tags.set (count - 1) tag

theorem foldl_moveDown_length (tags : List τ) (is : List Nat) :
    (is.foldl moveDown tags).length = tags.length := by
  induction is generalizing tags with
  | nil => rfl
  | cons i is ih => rw [foldl_cons, ih, moveDown, length_set]

theorem shiftDown_length (tags : List τ) (r count : Nat) :
    (shiftDown tags r count).length = tags.length :=
  foldl_moveDown_length tags _

theorem foldl_moveDown_getElem? {tags : List τ} {r : Nat} (n j : Nat) (h : r + n < tags.length) :
    ((List.range' (r + 1) n).foldl moveDown tags)[j]? =
      if r ≤ j ∧ j < r + n then tags[j + 1]? else tags[j]? := by
  induction n generalizing j with
  | zero => rw [if_neg (by omega)]; rfl
  | succ n ih =>
    have ih := fun j => ih j (by omega)
    rw [range'_concat, foldl_append, foldl_cons, foldl_nil, moveDown,
      getElem?_set, foldl_moveDown_length, ih]
    -- the tag moved last was not touched before
    have hlast : ((List.range' (r + 1) n).foldl moveDown tags)[r + 1 + 1 * n]! =
        tags[r + n + 1]! := by
      rw [getElem!_eq_getElem?_getD, getElem!_eq_getElem?_getD, ih, if_neg (by omega)]
      rw [show r + 1 + 1 * n = r + n + 1 by omega]
    rw [hlast]
    by_cases hj : j = r + n
    · subst hj
      rw [if_pos (by omega), if_pos (by omega), if_pos ⟨by omega, by omega⟩]
      rw [getElem!_eq_getElem?_getD, getElem?_eq_getElem (i := r + n + 1) h,
        Option.getD_some]
    · rw [if_neg (by omega)]
      exact if_congr (by omega) rfl rfl

/-- Removing an item and moving the tags down removes the slot. -/
theorem zip_shiftDown {tags : List τ} {items : List ι} {r : Nat} (hr : r < items.length)
    (h : items.length ≤ tags.length) :
    (shiftDown tags r items.length).zip (items.eraseIdx r) = (tags.zip items).eraseIdx r := by
  apply ext_getElem?
  intro j
  simp only [List.zip]
  rw [getElem?_zipWith, getElem?_eraseIdx, getElem?_eraseIdx,
    getElem?_zipWith, getElem?_zipWith, shiftDown, foldl_moveDown_getElem? _ _ (by omega)]
  by_cases hj : j < r
  · rw [if_neg (by omega), if_pos hj, if_pos hj]
  · rw [if_neg hj, if_neg hj]
    by_cases hlast : j + 1 < items.length
    · rw [if_pos (by omega)]
    · rw [getElem?_eq_none (show items.length ≤ j + 1 by omega)]
      split <;> split <;> simp_all

theorem putLast_length (tags : List τ) (count : Nat) (tag : τ) :
    count ≤ (putLast tags count tag).length := by
  simp only [putLast, length_set]
  split
  · simp only [length_append, length_replicate]
    omega
  · omega

theorem zip_putLast {tags : List τ} {items : List ι} (h : items.length ≤ tags.length) (tag : τ)
    (item : ι) : (putLast tags (items.length + 1) tag).zip (items ++ [item]) =
      tags.zip items ++ [(tag, item)] := by
  unfold putLast
  generalize hgrown : (if tags.length ≤ items.length + 1 then
    tags ++ List.replicate (items.length + 1 + 10 - tags.length) default else tags) = grown
  have htake : grown.take items.length = tags.take items.length := by
    subst hgrown
    split
    · rw [take_append_of_le_length h]
    · rfl
  have hroom : items.length < grown.length := by
    subst hgrown
    split
    · simp; omega
    · omega
  simp only [Nat.add_sub_cancel]
  rw [set_eq_take_append_cons_drop, if_pos hroom, zip_append (by simp; omega),
    zip_cons_cons, zip_nil_right, htake]
  congr 1
  conv_rhs => rw [zip_eq_zip_take_min, Nat.min_eq_right h, take_length]

/-- Where an item is after another one was removed. -/
theorem idxOf?_eraseIdx [BEq ι] [LawfulBEq ι] {items : List ι} {i : Nat} {x y : ι}
    (hi : items[i]? = some x) (hxy : x ≠ y) :
    (items.eraseIdx i).idxOf? y =
      (items.idxOf? y).map fun r => if i < r then r - 1 else r := by
  induction items generalizing i with
  | nil => simp at hi
  | cons a items ih =>
    cases i with
    | zero =>
      rw [getElem?_cons_zero, Option.some.injEq] at hi
      subst hi
      rw [eraseIdx_cons_zero, idxOf?_cons, if_neg (by simpa using hxy), Option.map_map]
      cases h : items.idxOf? y <;> simp
    | succ i =>
      rw [eraseIdx_cons_succ, idxOf?_cons, idxOf?_cons, ih (by simpa using hi)]
      by_cases ha : a = y
      · simp [ha]
      · rw [if_neg (by simpa using ha), if_neg (by simpa using ha), Option.map_map, Option.map_map]
        congr 1
        funext r
        simp only [Function.comp, Nat.add_lt_add_iff_right, Nat.add_sub_cancel]
        split
        · omega
        · rfl

end NetBox.Lib.Slots
