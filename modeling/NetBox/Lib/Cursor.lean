import Mathlib.Data.List.Basic

/-! # Deleting from a list under a live cursor

A loop walks a list by position, deletes the elements that satisfy `p` and
keeps a cursor into the same list: a deletion before the cursor moves it back
by one. Afterwards the list is the filtered one and the cursor stands on the
element it stood on, or on the first kept one after it.
-/
namespace NetBox.Lib.Cursor

open List

variable {α : Type}

/-- `scan p rest index cursor` walks `rest`, whose first element is at `index`.
It returns what is kept of `rest`, the cursor and how many were deleted. -/
def scan (p : α → Bool) : List α → Nat → Nat → List α × Nat × Nat
  | [], _, cursor => ([], cursor, 0)
  | a :: rest, index, cursor =>
    if p a then
      let r := scan p rest index (if index < cursor then cursor - 1 else cursor)
      (r.1, r.2.1, r.2.2 + 1)
    else
      let r := scan p rest (index + 1) cursor
      (a :: r.1, r.2.1, r.2.2)

theorem scan_kept (p : α → Bool) (rest : List α) (index cursor : Nat) :
    (scan p rest index cursor).1 = rest.filter (fun a => !p a) := by
  induction rest generalizing index cursor with
  | nil => rfl
  | cons a rest ih => by_cases h : p a = true <;> simp [scan, h, ih]

/-- What lies before the cursor is kept or deleted as the rest of the list is;
a cursor at or before `index` does not move. -/
theorem scan_cursor (p : α → Bool) (rest : List α) (index cursor : Nat) :
    (scan p rest index cursor).2.1 = if cursor ≤ index then cursor else
      index + ((rest.take (cursor - index)).filter (fun a => !p a)).length +
        (cursor - index - rest.length) := by
  induction rest generalizing index cursor with
  | nil => simp only [scan, take_nil, filter_nil, length_nil]; split <;> omega
  | cons a rest ih =>
    by_cases hc : cursor ≤ index
    · have hn : ¬ index < cursor := by omega
      by_cases h : p a = true
      · simp [scan, h, hn, ih, hc]
      · simp [scan, h, ih, hc, show cursor ≤ index + 1 by omega]
    · obtain ⟨d, rfl⟩ : ∃ d, cursor = index + (d + 1) := ⟨cursor - index - 1, by omega⟩
      have hd : index + (d + 1) - index = d + 1 := by omega
      by_cases h : p a = true
      · simp only [scan, h, if_true, show index < index + (d + 1) by omega, ih, if_neg hc, hd,
          take_succ_cons, filter_cons, Bool.not_true, Bool.false_eq_true, if_false,
          length_cons]
        by_cases hz : d = 0
        · simp [hz]
        · rw [if_neg (by omega), show index + (d + 1) - 1 - index = d by omega]
          omega
      · simp only [scan, h, if_false, ih, if_neg hc, hd, take_succ_cons, filter_cons,
          Bool.false_eq_true, length_cons, Bool.not_false, if_true]
        by_cases hz : d = 0
        · simp [hz]
        · rw [if_neg (by omega), show index + (d + 1) - (index + 1) = d by omega]
          omega

/-- After a walk of the whole list the cursor counts what is kept before it. -/
theorem scan_index (p : α → Bool) (l : List α) {cursor : Nat} (hc : cursor ≤ l.length) :
    (scan p l 0 cursor).2.1 = ((l.take cursor).filter (fun a => !p a)).length := by
  rw [scan_cursor]
  by_cases hz : cursor = 0
  · simp [hz]
  · rw [if_neg (by omega)]
    simp [show cursor - l.length = 0 by omega]

end NetBox.Lib.Cursor
