import Mathlib.Data.List.Basic

/-! # Editing a list in place

A loop walks a list by position and edits it where it stands. The list is what
lies before the position followed by the rest, and every edit is one of the
rest alone.
-/
namespace NetBox.Lib.Edit

open List

variable {α : Type}

def insertAt (l : List α) (i : Nat) (xs : List α) : List α :=
  l.take i ++ xs ++ l.drop i

def deleteAt (l : List α) (i n : Nat) : List α :=
  l.take i ++ l.drop (i + n)

variable (before rest : List α) (i : Nat)

@[simp] theorem insertAt_after (xs : List α) :
    insertAt (before ++ rest) (before.length + i) xs = before ++ insertAt rest i xs := by
  simp only [insertAt, take_length_add_append, drop_length_add_append, append_assoc]

@[simp] theorem deleteAt_after (n : Nat) :
    deleteAt (before ++ rest) (before.length + i) n = before ++ deleteAt rest i n := by
  simp only [deleteAt, Nat.add_assoc, take_length_add_append, drop_length_add_append,
    append_assoc]

@[simp] theorem deleteAt_here (n : Nat) :
    deleteAt (before ++ rest) before.length n = before ++ deleteAt rest 0 n :=
  deleteAt_after before rest 0 n

@[simp] theorem insertAt_one (a : α) (xs : List α) :
    insertAt (a :: rest) 1 xs = a :: (xs ++ rest) :=
  rfl

@[simp] theorem deleteAt_zero (n : Nat) : deleteAt rest 0 n = rest.drop n := by
  simp [deleteAt]

@[simp] theorem deleteAt_one (a : α) (n : Nat) : deleteAt (a :: rest) 1 n = a :: rest.drop n := by
  simp [deleteAt, Nat.add_comm 1 n]

end NetBox.Lib.Edit
