import NetBox.Session.Settings
import Mathlib.Data.List.Perm.Basic
import Mathlib.Data.List.GetD

/-! # Lists of algorithms as texts

`SetAlgoList` takes the algorithms that a text names, adds the warning level when
the text does not have it, and merges in the algorithms that the text leaves out,
each on the side of the warning level on which the default list has it.
-/
namespace NetBox.Session

open Base.Text Lib List

/-- The list while the algorithms of the default are merged into it. -/
structure MergedList where
  newList : List Nat
  warnIndex : Nat
  priority : Bool

/-- Where a default algorithm goes: those that the default has in front of all
used ones stay in front, of the others those above the warning level of the
default go above the one of the list, and the rest to the end. -/
def MergedList.targetIndex (warnDefaultIndex : Option Nat) (m : MergedList)
    (defaultIndex : Nat) : Nat :=
  if m.priority then defaultIndex
  else match warnDefaultIndex with
    | some index => if defaultIndex < index then m.warnIndex else m.newList.length
    | none => m.newList.length

/-- One algorithm of the default list, with its index. -/
def MergedList.merge (warnDefaultIndex : Option Nat) (used : List Nat) (m : MergedList)
    (p : Nat × Nat) : MergedList :=
  if used.contains p.1 then { m with priority := false }
  else
    let target := m.targetIndex warnDefaultIndex p.2
    { m with
      newList := m.newList.insertIdx target p.1
      warnIndex := if warnDefaultIndex.isSome && decide (target ≤ m.warnIndex)
        then m.warnIndex + 1 else m.warnIndex }

section
variable {used front back defaults : List Nat} {warn warnDefaultIndex n : Nat} {m : MergedList}

theorem insertIdx_append (algo : Nat) {i : Nat} (h : i ≤ front.length) (back : List Nat) :
    (front ++ back).insertIdx i algo = front.insertIdx i algo ++ back := by
  induction front generalizing i with
  | nil =>
    obtain rfl : i = 0 := Nat.le_zero.mp h
    rfl
  | cons x front ih =>
    cases i with
    | zero => rfl
    | succ i =>
      rw [cons_append, insertIdx_succ_cons, insertIdx_succ_cons,
        ih (Nat.le_of_succ_le_succ h)]
      rfl

/-- What the loop knows about the list before the warning level of the default is reached. -/
structure MergedList.Above (m : MergedList) (warn n : Nat) (front back : List Nat) : Prop where
  newList : m.newList = front ++ warn :: back
  warnIndex : m.warnIndex = front.length
  priority : m.priority = true → n ≤ front.length

theorem MergedList.Above.skip (h : m.Above warn n front back) (warnDefaultIndex algo : Nat)
    (hused : used.contains algo = true) :
    (m.merge (some warnDefaultIndex) used (algo, n)).Above warn (n + 1) front back := by
  rw [MergedList.merge, if_pos hused]
  exact ⟨h.newList, h.warnIndex, fun hpriority => Bool.noConfusion hpriority⟩

theorem MergedList.Above.insert (h : m.Above warn n front back) (algo : Nat)
    (hused : used.contains algo = false) (hn : n < warnDefaultIndex) :
    ∃ i ≤ front.length, (m.merge (some warnDefaultIndex) used (algo, n)).Above warn (n + 1)
      (front.insertIdx i algo) back := by
  have htarget : m.targetIndex (some warnDefaultIndex) n ≤ front.length := by
    unfold MergedList.targetIndex
    split
    next hpriority => exact h.priority hpriority
    next =>
      dsimp only
      rw [if_pos hn, h.warnIndex]
  have hlength := length_insertIdx_of_le_length htarget algo
  refine ⟨_, htarget, ?_⟩
  rw [MergedList.merge, if_neg (by rw [hused]; exact Bool.false_ne_true)]
  refine ⟨?_, ?_, fun hpriority => ?_⟩
  · dsimp only
    rw [h.newList, insertIdx_append algo htarget]
  · dsimp only
    rw [if_pos (by simpa [h.warnIndex] using htarget), hlength, h.warnIndex]
  · rw [hlength]
    exact Nat.succ_le_succ (h.priority hpriority)

end

/-! ## The list -/

section
variable {before after : List Nat} {warn algo : Nat}

end

variable {t : TextApi} {a : Algo} {warn : Nat} {default : List Nat}

end NetBox.Session
