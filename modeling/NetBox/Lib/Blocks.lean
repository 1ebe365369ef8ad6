import Mathlib.Order.Monotone.Basic

/-! # Consecutive blocks

Blocks of given lengths lie one behind the other. A place is given by its number, or by
its block and its place in the block.
-/
namespace NetBox.Lib.Blocks

variable (len : Nat → Nat)

/-- The number of places before a block. -/
def start : Nat → Nat
  | 0 => 0
  | i + 1 => start i + len i

/-- Walks over at most so many blocks from block `i` on, to the place `d` behind its
beginning. -/
def locate : Nat → Nat → Nat → Option (Nat × Nat)
  | 0, _, _ => none
  | fuel + 1, i, d => if d < len i then some (i, d) else locate fuel (i + 1) (d - len i)

variable {len} {i j d e fuel : Nat}

theorem start_mono : Monotone (start len) :=
  monotone_nat_of_le_succ fun _ => Nat.le_add_right _ _

/-- Places of an earlier block come first. -/
theorem start_add_lt (h : i < j) (hd : d < len i) : start len i + d < start len j :=
  calc start len i + d < start len i + len i := Nat.add_lt_add_left hd _
    _ ≤ start len j := start_mono h

theorem place_unique (h : start len i + d = start len j + e) (hd : d < len i) (he : e < len j) :
    i = j ∧ d = e := by
  rcases Nat.lt_trichotomy i j with hlt | rfl | hlt
  · have := start_add_lt hlt hd
    omega
  · exact ⟨rfl, Nat.add_left_cancel h⟩
  · have := start_add_lt hlt he
    omega

theorem locate_spec (h : locate len fuel i d = some (j, e)) :
    start len i + d = start len j + e ∧ e < len j ∧ i ≤ j ∧ j < i + fuel := by
  induction fuel generalizing i d with
  | zero => cases h
  | succ fuel ih =>
    rw [locate] at h
    split at h
    next hd =>
      cases h
      exact ⟨rfl, hd, Nat.le_refl _, by omega⟩
    next hd =>
      obtain ⟨heq, he, hle, hlt⟩ := ih h
      rw [start] at heq
      exact ⟨by omega, he, by omega, by omega⟩

/-- The walk comes to a place that is in one of the blocks. -/
theorem exists_locate (h : start len i + d < start len (i + fuel)) :
    ∃ j e, locate len fuel i d = some (j, e) := by
  induction fuel generalizing i d with
  | zero => exact absurd h (by simp)
  | succ fuel ih =>
    rw [locate]
    split
    next hd => exact ⟨i, d, rfl⟩
    next hd =>
      refine ih ?_
      rw [start, Nat.add_right_comm i 1 fuel]
      show _ < start len (i + (fuel + 1))
      omega

end NetBox.Lib.Blocks
