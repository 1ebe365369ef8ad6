import Mathlib.Data.List.Perm.Basic
import Mathlib.Data.List.Nodup
import Mathlib.Logic.Function.Basic

/-! # Lists with a meaningful order, and who holds what

A list whose elements are moved from one position to another, and a list of
holders of which each holds one thing at most.
-/
namespace NetBox.Lib.Holders

open List

variable {α β : Type}

/-- Takes the element at `cur` out and puts it back at position `new`. -/
def move (l : List α) (cur new : Nat) : List α :=
  match l[cur]? with
  | some x => (l.eraseIdx cur).insertIdx new x
  | none => l

theorem move_perm (l : List α) (cur : Nat) {new : Nat} (h : new < l.length) :
    (move l cur new).Perm l := by
  unfold move
  split
  · next x hx =>
    obtain ⟨hcur, rfl⟩ := List.getElem?_eq_some_iff.mp hx
    have hlength := length_eraseIdx_of_lt hcur
    exact (perm_insertIdx _ _ (by omega)).trans (getElem_cons_eraseIdx_perm hcur)
  · exact .rfl

theorem length_move_le (l : List α) (cur new : Nat) : (move l cur new).length ≤ l.length := by
  unfold move
  split
  · next x hx =>
    obtain ⟨hcur, -⟩ := List.getElem?_eq_some_iff.mp hx
    have hlength := length_eraseIdx_of_lt hcur
    rw [length_insertIdx]
    split <;> omega
  · exact Nat.le_refl _

/-- A move behind the front of a list leaves the front alone. -/
theorem move_append (front back : List α) (cur new : Nat) :
    move (front ++ back) (front.length + cur) (front.length + new) = front ++ move back cur new := by
  have hinsert : ∀ (back : List α) (x : α), (front ++ back).insertIdx (front.length + new) x =
      front ++ back.insertIdx new x := by
    intro back x
    induction front with
    | nil => simp
    | cons y front ih => simp [Nat.succ_add, ih]
  unfold move
  rw [getElem?_append_right (Nat.le_add_right _ _), Nat.add_sub_cancel_left]
  cases back[cur]? with
  | none => rfl
  | some x =>
    dsimp only
    rw [eraseIdx_append_of_length_le (Nat.le_add_right _ _), Nat.add_sub_cancel_left, hinsert]

theorem move_to_front [DecidableEq α] {l : List α} {x : α} (h : x ∈ l) :
    move l (l.idxOf x) 0 = x :: l.erase x := by
  unfold move
  rw [getElem?_idxOf h, erase_eq_eraseIdx_of_idxOf rfl]
  exact insertIdx_zero

theorem move_to_back (front : List α) (x : α) (back : List α) :
    move (front ++ x :: back) front.length (front.length + back.length) = front ++ back ++ [x] := by
  have hmove := move_append front (x :: back) 0 back.length
  rw [Nat.add_zero] at hmove
  rw [hmove, append_assoc]
  congr 1
  exact insertIdx_length_self

section
variable [DecidableEq α] {holds : α → Option β} {l : List α} {a a' : α} {b : β}

theorem filterMap_update_some (hl : l.Nodup) (ha : a ∈ l) (h : holds a = none) (b : β) :
    (l.filterMap (Function.update holds a (some b))).Perm (b :: l.filterMap holds) := by
  have herase := perm_cons_erase ha
  refine (herase.filterMap _).trans (List.Perm.trans ?_ ((herase.filterMap holds).cons b).symm)
  rw [filterMap_cons_some (Function.update_self ..), filterMap_cons_none h]
  refine .of_eq (congrArg _ (filterMap_congr fun c hc => Function.update_of_ne ?_ _ _))
  intro hca
  exact hl.not_mem_erase (hca ▸ hc)

theorem filterMap_update_none (hl : l.Nodup) (ha : a ∈ l) (h : holds a = some b) :
    (l.filterMap holds).Perm (b :: l.filterMap (Function.update holds a none)) := by
  have hsome := filterMap_update_some hl ha (Function.update_self a none holds) b
  rwa [Function.update_idem, ← h, Function.update_eq_self] at hsome

/-- Nothing is lost with somebody who holds nothing. -/
theorem filterMap_erase_none (ha : a ∈ l) (h : holds a = none) :
    ((l.erase a).filterMap holds).Perm (l.filterMap holds) := by
  have hperm := (perm_cons_erase ha).filterMap holds
  rw [filterMap_cons_none h] at hperm
  exact hperm.symm

end

end NetBox.Lib.Holders
