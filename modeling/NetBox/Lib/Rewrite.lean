import Mathlib.Data.List.Basic

/-! # Rewriting an occurrence inside a list

A rule replaces one occurrence of a list by another one, anywhere. When the two
sides of the rule differ at some position, a list that has departed from a
target towards the right side of the rule never comes back to it.
-/
namespace NetBox.Lib.Rewrite

open List

variable {α : Type}

def Rewrites (what byWhat l m : List α) : Prop :=
  ∃ a b, l = a ++ what ++ b ∧ m = a ++ byWhat ++ b

/-- After a common beginning the one list has `x` and the other one `y`. -/
def Departs (x y : α) (l r : List α) : Prop :=
  ∃ common, common ++ [x] <+: l ∧ common ++ [y] <+: r

theorem Departs.ne {x y : α} {l r : List α} (hxy : x ≠ y) (h : Departs x y l r) : l ≠ r := by
  rintro rfl
  obtain ⟨common, hx, hy⟩ := h
  have heq := (prefix_of_prefix_length_le hx hy (by simp)).eq_of_length (by simp)
  exact hxy (by simpa using heq)

/-- Two lists of which none begins with the other one differ somewhere. -/
theorem exists_departs {l r : List α} (hlr : ¬ l <+: r) (hrl : ¬ r <+: l) :
    ∃ x y, x ≠ y ∧ Departs x y l r := by
  induction l generalizing r with
  | nil => exact absurd List.nil_prefix hlr
  | cons a l ih =>
    cases r with
    | nil => exact absurd List.nil_prefix hrl
    | cons b r =>
      by_cases hab : a = b
      · subst hab
        rw [prefix_cons_inj] at hlr hrl
        obtain ⟨x, y, hxy, common, hx, hy⟩ := ih hlr hrl
        exact ⟨x, y, hxy, a :: common, by simpa using hx, by simpa using hy⟩
      · exact ⟨a, b, hab, [], by simp, by simp⟩

/-- Where the two sides of the rule differ, a rewriting changes `y` into `x`. -/
theorem exists_changed {what byWhat : List α} {x y : α} (hrule : Departs x y byWhat what)
    (a b : List α) :
    ∃ common, common ++ [y] <+: a ++ what ++ b ∧ common ++ [x] <+: a ++ byWhat ++ b := by
  obtain ⟨common, hx, hy⟩ := hrule
  refine ⟨a ++ common, ?_, ?_⟩ <;>
    rw [append_assoc, append_assoc, prefix_append_right_inj]
  · exact hy.trans (prefix_append _ _)
  · exact hx.trans (prefix_append _ _)

/-- No rewriting brings a list back once it has departed from `r` by an `x`
where `r` has `y`. -/
theorem Departs.rewrites {what byWhat l m r : List α} {x y : α} (h : Departs x y l r)
    (hxy : x ≠ y) (hrule : Departs x y byWhat what) (hstep : Rewrites what byWhat l m) :
    Departs x y m r := by
  obtain ⟨common, hx, hy⟩ := h
  obtain ⟨a, b, rfl, rfl⟩ := hstep
  obtain ⟨here, hhere, hnew⟩ := exists_changed hrule a b
  rcases Nat.lt_trichotomy common.length here.length with hlt | heq | hgt
  · -- the change is behind the place where the lists part
    have hkeep : common ++ [x] <+: here :=
      prefix_of_prefix_length_le hx ((prefix_append _ _).trans hhere) (by simp; omega)
    exact ⟨common, hkeep.trans ((prefix_append _ _).trans hnew), hy⟩
  · have := (prefix_of_prefix_length_le hx hhere (by simp [heq])).eq_of_length (by simp [heq])
    exact absurd (by simpa using (append_inj' this rfl).2) hxy
  · -- the change is before it, and now the lists part there
    have hbefore : here ++ [y] <+: common :=
      prefix_of_prefix_length_le hhere ((prefix_append _ _).trans hx) (by simp; omega)
    exact ⟨here, hnew, hbefore.trans ((prefix_append _ _).trans hy)⟩

/-- Of two occurrences the first one is rewritten, while `r` is what comes of
rewriting the second one and of whatever is done behind it. -/
theorem departs_early {what byWhat a b c d r : List α} {x y : α}
    (hrule : Departs x y byWhat what) (heq : a ++ what ++ b = c ++ what ++ d)
    (hlt : a.length < c.length) : Departs x y (a ++ byWhat ++ b) (c ++ byWhat ++ r) := by
  obtain ⟨common, hx, hy⟩ := hrule
  have hold : a ++ common ++ [y] <+: c ++ what ++ d := by
    rw [← heq, append_assoc, append_assoc, prefix_append_right_inj]
    exact hy.trans (prefix_append _ _)
  have hboth : c ++ common <+: c ++ what ++ d := by
    rw [append_assoc, prefix_append_right_inj]
    exact ((prefix_append _ _).trans hy).trans (prefix_append _ _)
  have hin : a ++ common ++ [y] <+: c ++ common :=
    prefix_of_prefix_length_le hold hboth (by simp; omega)
  refine ⟨a ++ common, ?_, hin.trans ?_⟩
  · rw [append_assoc, append_assoc, prefix_append_right_inj]
    exact hx.trans (prefix_append _ _)
  · rw [append_assoc, prefix_append_right_inj]
    exact ((prefix_append _ _).trans hx).trans (prefix_append _ _)

/-- No beginning of the list is also an end of it, the list itself apart. -/
def Unbordered (l : List α) : Prop := ∀ b, b ≠ [] → b <+: l → b <:+ l → b = l

/-- Two occurrences of a list without borders do not overlap. -/
theorem Unbordered.disjoint {what a b c d : List α} (h : Unbordered what)
    (heq : a ++ what ++ b = c ++ what ++ d) (hlt : a.length < c.length) : a ++ what <+: c := by
  have hfront : a ++ what <+: c ++ what ++ d := ⟨b, heq⟩
  rw [append_assoc c] at hfront
  by_cases hle : (a ++ what).length ≤ c.length
  · exact prefix_of_prefix_length_le hfront (prefix_append _ _) hle
  · -- the end of the first occurrence is a beginning of the second one
    obtain ⟨excess, hexcess⟩ := prefix_of_prefix_length_le
      (prefix_append c (what ++ d)) hfront (by omega)
    have hlen := congrArg List.length hexcess
    simp only [length_append] at hlen hle
    have hbegin : excess <+: what := by
      rw [← hexcess, prefix_append_right_inj] at hfront
      exact prefix_of_prefix_length_le hfront (prefix_append _ _) (by omega)
    have hend : excess <:+ what :=
      suffix_of_suffix_length_le ⟨c, hexcess⟩ (suffix_append a what) (by omega)
    have hne : excess ≠ [] := by
      rintro rfl
      simp only [length_nil] at hlen
      omega
    have := congrArg List.length (h excess hne hbegin hend)
    omega

end NetBox.Lib.Rewrite
