import Mathlib.Algebra.Group.Nat.Defs
import Mathlib.Data.List.Basic
import Mathlib.Order.Lattice
import Mathlib.Tactic.Common

/-! # Binary search in a sorted list

What is searched for is given by the sign of its comparison with an item: zero
where the item is the one, positive where it comes behind. The items are read
through a function that may fail, and then the search fails.

A comparison is given by its sign too, as `strcmp` does it.
-/

namespace NetBox.Lib.SortedSearch

open List

variable {α : Type*} (c : α → Int)

/-- The search between two positions, `r` not included, with the place that the last
comparison left for a new item. -/
def search (get : Nat → Option α) (l r place : Nat) : Option (α ⊕ Nat) :=
  if l < r then
    let mid := (l + r - 1) / 2
    match get mid with
    | none => none
    | some x =>
      if c x = 0 then some (.inl x)
      else if 0 < c x then search get l mid mid
      else search get (mid + 1) r (mid + 1)
  else some (.inr place)
termination_by r - l

/-- The same where several items may be the one: behind an item that is not too small
none is, and behind one that is too large all are. -/
def WeaklyAscending (items : List α) : Prop :=
  items.Pairwise fun a b => (0 ≤ c a → 0 ≤ c b) ∧ (0 < c a → 0 < c b)

/-- All items before the position are too small, and all from it on too large. -/
def IsPlace (items : List α) (p : Nat) : Prop :=
  (∀ x ∈ items.take p, c x < 0) ∧ ∀ x ∈ items.drop p, 0 < c x

variable {mid : Nat} {x : α}

section Search

variable {c} {items : List α} {get : Nat → Option α}

theorem drop_all {P : α → Prop} (h : items.Pairwise fun a b => P a → P b)
    (hx : items[mid]? = some x) (hP : P x) : ∀ y ∈ items.drop mid, P y := by
  obtain ⟨hmid, rfl⟩ := List.getElem?_eq_some_iff.mp hx
  have hdrop := h.sublist (drop_sublist mid items)
  rw [drop_eq_getElem_cons hmid, pairwise_cons] at hdrop
  intro y hy
  rw [drop_eq_getElem_cons hmid] at hy
  rcases mem_cons.mp hy with rfl | hy
  · exact hP
  · exact hdrop.1 y hy hP

theorem take_all {P : α → Prop} (h : items.Pairwise fun a b => P b → P a)
    (hx : items[mid]? = some x) (hP : P x) : ∀ y ∈ items.take (mid + 1), P y := by
  obtain ⟨hmid, rfl⟩ := List.getElem?_eq_some_iff.mp hx
  have htake := h.sublist (take_sublist (mid + 1) items)
  rw [take_succ_eq_append_getElem hmid, pairwise_append] at htake
  intro y hy
  rw [take_succ_eq_append_getElem hmid] at hy
  rcases mem_append.mp hy with hy | hy
  · exact htake.2.2 y hy _ mem_cons_self hP
  · rw [mem_singleton.mp hy]
    exact hP

theorem drop_positive (h : WeaklyAscending c items) (hx : items[mid]? = some x) (hc : 0 < c x) :
    ∀ y ∈ items.drop mid, 0 < c y :=
  drop_all (h.imp And.right) hx hc

theorem take_negative (h : WeaklyAscending c items) (hx : items[mid]? = some x) (hc : c x < 0) :
    ∀ y ∈ items.take (mid + 1), c y < 0 :=
  take_all (h.imp fun hab => by omega) hx hc

theorem take_nonpositive (h : WeaklyAscending c items) (hx : items[mid]? = some x) (hc : c x ≤ 0) :
    ∀ y ∈ items.take (mid + 1), c y ≤ 0 :=
  take_all (h.imp fun hab => by omega) hx hc

/-- How a search may end. -/
inductive Outcome (c : α → Int) (items : List α) : Option (α ⊕ Nat) → Prop
  | failed : Outcome c items none
  | found {x : α} : x ∈ items → c x = 0 → Outcome c items (some (.inl x))
  | place {p : Nat} : p ≤ items.length → IsPlace c items p → Outcome c items (some (.inr p))

theorem search_outcome (h : WeaklyAscending c items)
    (hget : ∀ i < items.length, get i = items[i]? ∨ get i = none) {l r place : Nat} (hlr : l ≤ r)
    (hr : r ≤ items.length) (hplace : place = l ∨ place = r) (hl : ∀ x ∈ items.take l, c x < 0)
    (hpos : ∀ x ∈ items.drop r, 0 < c x) : Outcome c items (search c get l r place) := by
  induction hn : r - l using Nat.strongRecOn generalizing l r place with
  | _ n ih =>
    rw [search]
    by_cases hlt : l < r
    · rw [if_pos hlt]
      have hmid : (l + r - 1) / 2 < items.length := by omega
      have hx : items[(l + r - 1) / 2]? = some items[(l + r - 1) / 2] :=
        getElem?_eq_getElem hmid
      dsimp only
      rcases hget _ hmid with hsome | hnone
      · rw [hsome, hx]
        dsimp only
        generalize items[(l + r - 1) / 2] = x at hx
        split
        · rename_i hzero
          exact .found (mem_of_getElem? hx) hzero
        · split
          · rename_i hc
            exact ih _ (by omega) (by omega) (Nat.le_of_lt hmid) (.inr rfl) hl
              (drop_positive h hx hc) rfl
          · exact ih _ (by omega) (by omega) hr (.inl rfl) (take_negative h hx (by omega)) hpos rfl
      · rw [hnone]
        exact .failed
    · rw [if_neg hlt]
      have hplace : place = l := by omega
      have hrl : r = l := by omega
      refine .place (by omega) ⟨?_, ?_⟩
      · rwa [hplace]
      · rw [hplace, ← hrl]
        exact hpos

/-- The search of a whole list ends with the item or with the place of a new one,
unless an item cannot be read. -/
theorem search_all (h : WeaklyAscending c items)
    (hget : ∀ i < items.length, get i = items[i]? ∨ get i = none) :
    Outcome c items (search c get 0 items.length 0) := by
  refine search_outcome h hget (Nat.zero_le _) (Nat.le_refl _) (.inl rfl) ?_ ?_
  · intro x hx
    rw [take_zero] at hx
    exact absurd hx not_mem_nil
  · intro x hx
    rw [drop_length] at hx
    exact absurd hx not_mem_nil

theorem search_reads {l r place : Nat} (hget : ∀ i < r, get i ≠ none) :
    search c get l r place ≠ none := by
  fun_induction search c get l r place with
  | case1 l r place hlt mid hnone => exact absurd hnone (hget mid (by omega))
  | case2 => exact Option.some_ne_none _
  | case3 l r place hlt mid x hx hzero hpos ih => exact ih fun i hi => hget i (by omega)
  | case4 l r place hlt mid x hx hzero hneg ih => exact ih hget
  | case5 => exact Option.some_ne_none _

/-- Where only the items before a bound can be read, the search has a result just when it
does not come to the bound going to the right all the time. -/
theorem search_ne_none_iff {bound l r place : Nat} (hlow : ∀ i < bound, get i ≠ none)
    (hhigh : ∀ i ≥ bound, get i = none) (hlr : l < r) (hbound : bound < r) :
    search c get l r place ≠ none ↔
      ∃ j x, get (r - 1 - (r - l) / 2 ^ (j + 1)) = some x ∧ 0 ≤ c x := by
  have hmid : ∀ {l}, l < r → r - 1 - (r - l) / 2 ^ (0 + 1) = (l + r - 1) / 2 := by
    intro l hlr
    omega
  have hread : ∀ {i x}, get i = some x → i < bound := by
    intro i x hx
    by_contra hge
    rw [hhigh i (Nat.not_lt.mp hge)] at hx
    cases hx
  fun_induction search c get l r place with
  | case1 l r place hlt mid hnone =>
    refine iff_of_false (fun h => h rfl) fun ⟨j, x, hx, _⟩ => ?_
    -- going on to the right leads to larger positions
    have hle : (r - l) / 2 ^ (j + 1) ≤ (r - l) / 2 ^ (0 + 1) :=
      Nat.div_le_div_left (Nat.pow_le_pow_right (by decide) (by omega)) (by decide)
    have hmid := hmid hlt
    have hge : bound ≤ mid := Nat.not_lt.mp fun hlt => hlow mid hlt hnone
    have hlt := hread hx
    omega
  | case2 l r place hlt mid x hx hzero =>
    exact iff_of_true (Option.some_ne_none _) ⟨0, x, hmid hlt ▸ hx, by omega⟩
  | case3 l r place hlt mid x hx hzero hpos ih =>
    have hbelow := hread hx
    exact iff_of_true (search_reads fun i hi => hlow i (by omega)) ⟨0, x, hmid hlt ▸ hx, by omega⟩
  | case4 l r place hlt mid x hx hzero hneg ih =>
    have hbelow := hread hx
    have hrest : r - (mid + 1) = (r - l) / 2 := by omega
    refine (ih (by omega) hbound hmid).trans ?_
    rw [hrest]
    constructor
    · intro ⟨j, y, hy, hc⟩
      rw [Nat.div_div_eq_div_mul, ← Nat.pow_succ'] at hy
      exact ⟨j + 1, y, hy, hc⟩
    · intro ⟨j, y, hy, hc⟩
      cases j with
      | zero =>
        rw [hmid hlt] at hy
        obtain rfl : x = y := Option.some.inj (hx.symm.trans hy)
        omega
      | succ j =>
        refine ⟨j, y, ?_, hc⟩
        rwa [Nat.div_div_eq_div_mul, ← Nat.pow_succ']
  | case5 l r place hlt => exact absurd hlr hlt

theorem IsPlace.ne_zero {p : Nat} (h : IsPlace c items p) (hx : x ∈ items) : c x ≠ 0 := by
  rw [← take_append_drop p items] at hx
  rcases mem_append.mp hx with hx | hx
  · exact Int.ne_of_lt (h.1 x hx)
  · exact (Int.ne_of_lt (h.2 x hx)).symm

end Search

/-! ## The first or the last of equal items -/

/-- The search that goes on when the item is found, to the left or to the right, and
tells where it ends and whether the item was met. -/
def bisect (leftmost : Bool) (items : List α) (l h : Nat) (found : Bool) : Nat × Bool :=
  if l < h then
    let mid := (l + h) / 2
    match items[mid]? with
    | none => (h, found)
    | some x =>
      if (if leftmost then c x < 0 else c x ≤ 0) then
        bisect leftmost items (mid + 1) h (found || c x == 0)
      else bisect leftmost items l mid (found || c x == 0)
  else (h, found)
termination_by h - l

/-- What holds of the bounds as long as the search goes on. -/
structure Narrowed (items : List α) (leftmost : Bool) (l h : Nat) (found : Bool) : Prop where
  le : l ≤ h
  bound : h ≤ items.length
  before : found = false → ∀ x ∈ items.take l, c x < 0
  behind : found = false → ∀ x ∈ items.drop h, 0 < c x
  met : found = true → ∃ x ∈ items, c x = 0
  sides : leftmost = false → (∀ x ∈ items.take l, c x ≤ 0) ∧ ∀ x ∈ items.drop h, 0 < c x

section Bisect

variable {c} {items : List α} {leftmost found : Bool} {l h : Nat} {x : α}

theorem Narrowed.met_or (inv : Narrowed c items leftmost l h found) (hx : items[mid]? = some x)
    (hfound : (found || c x == 0) = true) : ∃ x ∈ items, c x = 0 := by
  rcases Bool.or_eq_true_iff.mp hfound with hfound | hzero
  · exact inv.met hfound
  · exact ⟨x, mem_of_getElem? hx, beq_iff_eq.mp hzero⟩

theorem Narrowed.right (inv : Narrowed c items leftmost l h found) (hasc : WeaklyAscending c items)
    (hx : items[mid]? = some x) (hmid : mid < h) (hc : if leftmost then c x < 0 else c x ≤ 0) :
    Narrowed c items leftmost (mid + 1) h (found || c x == 0) where
  le := hmid
  bound := inv.bound
  before hfound := by
    rw [Bool.or_eq_false_iff, beq_eq_false_iff_ne] at hfound
    refine take_negative hasc hx ?_
    split at hc <;> omega
  behind hfound := inv.behind (Bool.or_eq_false_iff.mp hfound).1
  met hfound := inv.met_or hx hfound
  sides hright := by
    rw [if_neg (Bool.eq_false_iff.mp hright)] at hc
    exact ⟨take_nonpositive hasc hx hc, (inv.sides hright).2⟩

theorem Narrowed.left (inv : Narrowed c items leftmost l h found) (hasc : WeaklyAscending c items)
    (hx : items[mid]? = some x) (hl : l ≤ mid) (hmid : mid < h)
    (hc : ¬ if leftmost then c x < 0 else c x ≤ 0) :
    Narrowed c items leftmost l mid (found || c x == 0) where
  le := hl
  bound := Nat.le_trans (Nat.le_of_lt hmid) inv.bound
  before hfound := inv.before (Bool.or_eq_false_iff.mp hfound).1
  behind hfound := by
    rw [Bool.or_eq_false_iff, beq_eq_false_iff_ne] at hfound
    refine drop_positive hasc hx ?_
    split at hc <;> omega
  met hfound := inv.met_or hx hfound
  sides hright := by
    rw [if_neg (Bool.eq_false_iff.mp hright), Int.not_le] at hc
    exact ⟨(inv.sides hright).1, drop_positive hasc hx hc⟩

theorem bisect_narrowed (hasc : WeaklyAscending c items)
    (inv : Narrowed c items leftmost l h found) :
    Narrowed c items leftmost (bisect c leftmost items l h found).1
      (bisect c leftmost items l h found).1 (bisect c leftmost items l h found).2 := by
  induction hn : h - l using Nat.strongRecOn generalizing l h found with
  | _ n ih =>
    rw [bisect]
    by_cases hlt : l < h
    · have hlen := inv.bound
      have hmid : (l + h) / 2 < items.length := by omega
      have hx : items[(l + h) / 2]? = some items[(l + h) / 2] := getElem?_eq_getElem hmid
      rw [if_pos hlt]
      dsimp only
      rw [hx]
      dsimp only
      generalize items[(l + h) / 2] = x at hx
      by_cases hc : if leftmost then c x < 0 else c x ≤ 0
      · rw [if_pos hc]
        exact ih _ (by omega) (inv.right hasc hx (by omega) hc) rfl
      · rw [if_neg hc]
        exact ih _ (by omega) (inv.left hasc hx (by omega) (by omega) hc) rfl
    · rw [if_neg hlt]
      have heq : l = h := Nat.le_antisymm inv.le (Nat.not_lt.mp hlt)
      exact heq ▸ inv

/-- The bounds at the start. -/
theorem narrowed_all (items : List α) (leftmost : Bool) :
    Narrowed c items leftmost 0 items.length false where
  le := Nat.zero_le _
  bound := Nat.le_refl _
  before _ x hx := by
    rw [take_zero] at hx
    exact absurd hx not_mem_nil
  behind _ x hx := by
    rw [drop_length] at hx
    exact absurd hx not_mem_nil
  met := nofun
  sides _ := by simp

end Bisect

/-! ## Insertion -/

/-- The list with a new item at the position. -/
def insertAt (items : List α) (p : Nat) (x : α) : List α := items.take p ++ x :: items.drop p

theorem insertAt_perm (items : List α) (p : Nat) (x : α) :
    (insertAt items p x).Perm (x :: items) := by
  have h : (insertAt items p x).Perm (x :: (items.take p ++ items.drop p)) := perm_middle
  rwa [take_append_drop] at h

/-- An item that belongs at a place keeps the order. -/
theorem pairwise_insertAt {R : α → α → Prop} {items : List α} (h : items.Pairwise R) {p : Nat}
    (htake : ∀ y ∈ items.take p, R y x) (hdrop : ∀ y ∈ items.drop p, R x y) :
    (insertAt items p x).Pairwise R := by
  rw [← take_append_drop p items, pairwise_append] at h
  rw [insertAt, pairwise_append, pairwise_cons]
  refine ⟨h.1, ⟨hdrop, h.2.1⟩, fun a ha b hb => ?_⟩
  rcases mem_cons.mp hb with rfl | hb
  · exact htake a ha
  · exact h.2.2 a ha b hb

/-! ## Comparisons -/

/-- The sign of a comparison turns around with its arguments, and not being greater
is transitive. -/
structure IsComparison (f : α → α → Int) : Prop where
  swap : ∀ a b, 0 < f a b ↔ f b a < 0
  trans : ∀ a b c, f a b ≤ 0 → f b c ≤ 0 → f a c ≤ 0

/-- The comparison by keys of a linear order. -/
def compareKeys {β : Type*} [LinearOrder β] (key : α → β) (a b : α) : Int :=
  if key a < key b then -1 else if key b < key a then 1 else 0

namespace IsComparison

variable {f g : α → α → Int}

theorem self (hf : IsComparison f) (a : α) : f a a = 0 := by
  have := hf.swap a a
  omega

theorem lt_of_lt_of_le (hf : IsComparison f) {a b c : α} (hab : f a b < 0) (hbc : f b c ≤ 0) :
    f a c < 0 := by
  have hac := hf.trans a b c (Int.le_of_lt hab) hbc
  have hba := (hf.swap b a).mpr hab
  have hca := hf.swap c a
  by_contra hne
  have := hf.trans b c a hbc (by omega)
  omega

theorem lt_of_le_of_lt (hf : IsComparison f) {a b c : α} (hab : f a b ≤ 0) (hbc : f b c < 0) :
    f a c < 0 := by
  have hac := hf.trans a b c hab (Int.le_of_lt hbc)
  have hcb := (hf.swap c b).mpr hbc
  have hca := hf.swap c a
  by_contra hne
  have := hf.trans c a b (by omega) hab
  omega

/-- Where a comparison makes no difference, another one decides. -/
theorem thenBy (hf : IsComparison f) (hg : IsComparison g) :
    IsComparison fun a b => if f a b = 0 then g a b else f a b where
  swap a b := by
    have hab := hf.swap a b
    have hba := hf.swap b a
    have hg := hg.swap a b
    split <;> split <;> omega
  trans a b c := by
    intro hab hbc
    have hfab : f a b ≤ 0 := by
      split at hab <;> omega
    have hfbc : f b c ≤ 0 := by
      split at hbc <;> omega
    have hfac := hf.trans a b c hfab hfbc
    split
    · rename_i hzero
      have hzab : f a b = 0 := by
        by_contra hne
        have := hf.lt_of_lt_of_le (a := a) (b := b) (c := c) (by omega) hfbc
        omega
      have hzbc : f b c = 0 := by
        by_contra hne
        have := hf.lt_of_le_of_lt (a := a) (b := b) (c := c) hfab (by omega)
        omega
      rw [if_pos hzab] at hab
      rw [if_pos hzbc] at hbc
      exact hg.trans a b c hab hbc
    · exact hfac

/-- Items with a mark come first. -/
theorem ofMark (mark : α → Bool) : IsComparison fun a b =>
    if mark a && !mark b then (-1 : Int) else if !mark a && mark b then 1 else 0 where
  swap a b := by cases mark a <;> cases mark b <;> decide
  trans a b c := by cases mark a <;> cases mark b <;> cases mark c <;> decide

theorem ofKey {β : Type*} [LinearOrder β] (key : α → β) : IsComparison (compareKeys key) where
  swap a b := by
    rw [compareKeys, compareKeys]
    rcases lt_trichotomy (key a) (key b) with h | h | h
    · simp [h, h.not_gt]
    · simp [h]
    · simp [h, h.not_gt]
  trans a b c := by
    have hle : ∀ a b, compareKeys key a b ≤ 0 ↔ key a ≤ key b := by
      intro a b
      rw [compareKeys]
      rcases lt_trichotomy (key a) (key b) with h | h | h
      · simp [h, h.le]
      · simp [h]
      · simp [h, h.not_gt]
    rw [hle, hle, hle]
    exact le_trans

theorem weaklyAscending {β : Type*} (hf : IsComparison f) (key : β → α) {items : List β}
    (h : items.Pairwise fun a b => f (key a) (key b) ≤ 0) (w : α) :
    WeaklyAscending (fun x => f (key x) w) items := by
  refine h.imp fun {a b} hab => ⟨fun (haw : 0 ≤ f (key a) w) => ?_,
    fun (haw : 0 < f (key a) w) => ?_⟩
  · show 0 ≤ f (key b) w
    by_contra hbw
    have := hf.lt_of_le_of_lt hab (Int.not_le.mp hbw)
    omega
  · show 0 < f (key b) w
    by_contra hbw
    have := hf.trans _ _ _ hab (Int.not_lt.mp hbw)
    omega

end IsComparison

end NetBox.Lib.SortedSearch
