import NetBox.Base.PathResolution
import NetBox.Base.Replace
import Mathlib.Data.List.Infix

/-! # Searching from an offset

`PosEx` of Sysutils.cpp adds the offset to a position that counts from 1, and to the 0
that stands for nothing found. `RtfRemoveHyperlinks` of Common.cpp goes on as long as
`PosEx` gives a position.
-/
namespace NetBox.Base.Text
open Lib.Edit List

def posEx (subStr str : UnicodeString) (offset : Nat) : Nat :=
  posNul subStr (str.drop (offset - 1)) + offset

/-- `sub` is found `p` places behind the beginning and not before. -/
def FirstAt (sub str : UnicodeString) (p : Nat) : Prop :=
  sub <+: str.drop p ∧ ∀ q < p, ¬ sub <+: str.drop q

/-- What a search from an offset is to give. -/
def IsPosEx (sub str : UnicodeString) (offset result : Nat) : Prop :=
  (result = 0 ∧ ∀ p, offset ≤ p → ¬ sub <+: str.drop (p - 1)) ∨
    (offset ≤ result ∧ sub <+: str.drop (result - 1) ∧
      ∀ p, offset ≤ p → p < result → ¬ sub <+: str.drop (p - 1))

/-! ## Positions -/

section
variable {sub str : UnicodeString} {p offset : Nat} {c : WChar}

theorem firstAt_zero : FirstAt sub str 0 ↔ sub <+: str := by
  simp [FirstAt]

theorem firstAt_succ :
    FirstAt sub (c :: str) (p + 1) ↔ ¬ sub <+: c :: str ∧ FirstAt sub str p := by
  constructor
  · rintro ⟨hat, hbefore⟩
    exact ⟨hbefore 0 (Nat.succ_pos p), hat, fun q hq => hbefore (q + 1) (Nat.succ_lt_succ hq)⟩
  · rintro ⟨hhead, hat, hbefore⟩
    refine ⟨hat, fun q hq => ?_⟩
    cases q with
    | zero => exact hhead
    | succ q => exact hbefore q (Nat.lt_of_succ_lt_succ hq)

theorem pos_eq_succ_iff : pos sub str = p + 1 ↔ FirstAt sub str p := by
  induction str generalizing p with
  | nil =>
    rw [pos]
    cases p with
    | zero => simp [firstAt_zero]
    | succ p =>
      refine iff_of_false (by split <;> omega) (fun h => h.2 0 (Nat.succ_pos p) ?_)
      simpa using h.1
  | cons c str ih =>
    by_cases hhead : sub <+: c :: str
    · rw [pos, if_pos (List.isPrefixOf_iff_prefix.mpr hhead)]
      cases p with
      | zero => simpa [firstAt_zero] using hhead
      | succ p => exact iff_of_false (by omega) fun h => (firstAt_succ.mp h).1 hhead
    · rw [pos_cons_of_not_start hhead]
      cases p with
      | zero => exact iff_of_false (by split <;> omega) (mt firstAt_zero.mp hhead)
      | succ p =>
        rw [firstAt_succ, and_iff_right hhead, ← ih]
        split <;> omega

theorem isPosEx_iff {r : Nat} (h : 1 ≤ offset) : IsPosEx sub str offset (r + offset) ↔
    FirstAt sub (str.drop (offset - 1)) r := by
  have hdrop : ∀ q, (str.drop (offset - 1)).drop q = str.drop (q + offset - 1) := fun q => by
    rw [drop_drop]
    congr 1
    omega
  unfold IsPosEx FirstAt
  simp only [hdrop]
  constructor
  · rintro (⟨hzero, -⟩ | ⟨-, hat, hbefore⟩)
    · omega
    · exact ⟨hat, fun q hq => hbefore (q + offset) (by omega) (by omega)⟩
  · rintro ⟨hat, hbefore⟩
    refine .inr ⟨by omega, hat, fun p hp hlt => ?_⟩
    have hq := hbefore (p - offset) (by omega)
    rwa [Nat.sub_add_cancel hp] at hq

theorem uptoNul_isPrefix (h : sub <+: str) : uptoNul sub <+: uptoNul str := by
  obtain ⟨rest, rfl⟩ := h
  rw [uptoNul, uptoNul, takeWhile_append]
  split
  · exact (List.takeWhile_prefix _).trans (prefix_append _ _)
  · exact prefix_rfl

/-- What stands at the beginning is found there. -/
theorem not_firstAt_of_posNul_eq_zero (h : posNul sub str = 0) : ¬ FirstAt sub str 0 := by
  intro hfirst
  have hprefix := uptoNul_isPrefix (firstAt_zero.mp hfirst)
  rw [posNul, pos_eq_succ_iff.mpr (firstAt_zero.mpr hprefix)] at h
  cases h

theorem isPrefix_of_firstAt_uptoNul (hzero : 0 ∉ sub)
    (h : FirstAt (uptoNul sub) (uptoNul str) p) : sub <+: str.drop p := by
  have hsub := h.1
  rw [uptoNul_eq hzero] at hsub
  have hstr : uptoNul str <+: str := List.takeWhile_prefix _
  exact hsub.trans (hstr.drop p)

/-- The sum is a place too far, so it is right only where the search that ends at U+0000
finds what it looks for a place too early. -/
theorem posEx_isPosEx_iff (h : 1 ≤ offset) : IsPosEx sub str offset (posEx sub str offset) ↔
    0 ∈ sub ∧ ∃ p, FirstAt (uptoNul sub) (uptoNul (str.drop (offset - 1))) p ∧
      FirstAt sub (str.drop (offset - 1)) (p + 1) := by
  rw [posEx, isPosEx_iff h]
  generalize str.drop (offset - 1) = rest
  constructor
  · intro hfirst
    cases hpos : posNul sub rest with
    | zero =>
      rw [hpos] at hfirst
      exact absurd hfirst (not_firstAt_of_posNul_eq_zero hpos)
    | succ p =>
      rw [hpos] at hfirst
      have hnul := pos_eq_succ_iff.mp hpos
      refine ⟨?_, p, hnul, hfirst⟩
      by_contra hzero
      exact hfirst.2 p (Nat.lt_succ_self p) (isPrefix_of_firstAt_uptoNul hzero hnul)
  · rintro ⟨-, p, hnul, hfirst⟩
    rw [posNul, pos_eq_succ_iff.mpr hnul]
    exact hfirst

end

/-! ## The loop that removes hyperlinks -/

def rtfHyperlinkFieldPrefix : UnicodeString := wstr "HYPERLINK \""
def rtfHyperlinkFieldSuffix : UnicodeString := wstr "\" "

/-- `RtfRemoveHyperlinks`, as far as it gets in so many rounds from `index`. -/
def rtfRemoveHyperlinks : Nat → Nat → UnicodeString → Option UnicodeString
  | 0, _, _ => none
  | fuel + 1, index, text =>
    let p := posEx rtfHyperlinkFieldPrefix text index
    if p > 0 then
      let index2 := p + rtfHyperlinkFieldPrefix.length
      let p2 := posEx rtfHyperlinkFieldSuffix text index2
      if p2 > 0 then
        rtfRemoveHyperlinks fuel index
          (deleteAt text (p - 1) (p2 - p + rtfHyperlinkFieldSuffix.length))
      else rtfRemoveHyperlinks fuel index2 text
    else some text

/-- A search from a position always gives one, so that the loop does not end. -/
theorem rtfRemoveHyperlinks_none (fuel : Nat) {index : Nat} (h : 1 ≤ index)
    (text : UnicodeString) : rtfRemoveHyperlinks fuel index text = none := by
  have hpos : ∀ sub str offset, 1 ≤ offset → posEx sub str offset > 0 := fun sub str offset h =>
    Nat.lt_of_lt_of_le h (Nat.le_add_left _ _)
  induction fuel generalizing index text with
  | zero => rfl
  | succ fuel ih =>
    have hfound := hpos rtfHyperlinkFieldPrefix text index h
    rw [rtfRemoveHyperlinks]
    dsimp only
    rw [if_pos hfound, if_pos (hpos _ _ _ (by omega))]
    exact ih h _

/-- `PosEx` is right only for some texts with a U+0000 in them, and the loop over the
hyperlinks ends for no text. -/
theorem posEx_right_iff (sub str text : UnicodeString) {offset : Nat} (h : 1 ≤ offset) :
    (IsPosEx sub str offset (posEx sub str offset) ↔
      0 ∈ sub ∧ ∃ p, FirstAt (uptoNul sub) (uptoNul (str.drop (offset - 1))) p ∧
        FirstAt sub (str.drop (offset - 1)) (p + 1)) ∧
    ¬ ∃ fuel result, rtfRemoveHyperlinks fuel 1 text = some result := by
  refine ⟨posEx_isPosEx_iff h, ?_⟩
  rintro ⟨fuel, result, hresult⟩
  rw [rtfRemoveHyperlinks_none fuel (Nat.le_refl 1)] at hresult
  cases hresult

theorem posEx_right_blank : ¬ IsPosEx (wstr " ") (wstr "a b") 1 (posEx (wstr " ") (wstr "a b") 1) :=
  fun h => absurd ((posEx_right_iff _ _ [] (Nat.le_refl 1)).1.mp h).1 (by decide)

/-- A blank is looked for in `ab` and in `a b`. -/
theorem posEx_sample : posEx (wstr " ") (wstr "ab") 1 = 1 ∧ posEx (wstr " ") (wstr "a b") 1 = 3 ∧
    ¬ IsPosEx (wstr " ") (wstr "ab") 1 (posEx (wstr " ") (wstr "ab") 1) ∧
    ¬ IsPosEx (wstr " ") (wstr "a b") 1 (posEx (wstr " ") (wstr "a b") 1) := by
  have hwrong : ∀ str : UnicodeString, ¬ IsPosEx (wstr " ") str 1 (posEx (wstr " ") str 1) :=
    fun str h => absurd ((posEx_isPosEx_iff (Nat.le_refl 1)).mp h).1 (by decide)
  exact ⟨by decide, by decide, hwrong _, hwrong _⟩

end NetBox.Base.Text
