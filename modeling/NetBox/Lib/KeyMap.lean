import Mathlib.Data.List.Basic

/-! # A map whose keys are compared, not equal

An ordered map looks a key up with its comparison alone, so two different keys
that compare equal are one key. The comparison is a parameter; all that the
lemmas use is that comparing equal is an equivalence.
-/
namespace NetBox.Lib.KeyMap

open List

/-- A comparison of keys: whether two keys are taken for the same one. -/
structure Keys (K : Type) where
  same : K → K → Bool
  equiv : Equivalence fun a b => same a b = true

namespace Keys

variable {K : Type} (k : Keys K)

/-- Keys that are compared by something of them. -/
def ofView {K L : Type} [DecidableEq L] (view : K → L) : Keys K where
  same a b := decide (view a = view b)
  equiv := ⟨fun _ => decide_eq_true rfl, fun h => decide_eq_true (of_decide_eq_true h).symm,
    fun h h' => decide_eq_true ((of_decide_eq_true h).trans (of_decide_eq_true h'))⟩

/-- Keys that compare equal exactly when they are equal. -/
def ofDecEq (K : Type) [DecidableEq K] : Keys K := ofView id

@[simp] theorem same_refl (a : K) : k.same a a = true := k.equiv.refl a

theorem same_comm (a b : K) : k.same a b = k.same b a :=
  Bool.eq_iff_iff.mpr ⟨k.equiv.symm, k.equiv.symm⟩

theorem same_congr_left {a b : K} (h : k.same a b = true) (c : K) : k.same a c = k.same b c :=
  Bool.eq_iff_iff.mpr ⟨k.equiv.trans (k.equiv.symm h), k.equiv.trans h⟩

theorem same_congr_right {a b : K} (h : k.same a b = true) (c : K) : k.same c a = k.same c b := by
  rw [k.same_comm c a, k.same_comm c b, k.same_congr_left h]

end Keys

variable {K V : Type} (k : Keys K)

def find? (m : List (K × V)) (x : K) : Option V :=
  (m.find? fun e => k.same e.1 x).map Prod.snd

/-- A key that is already there keeps the value it has. -/
def insert (m : List (K × V)) (x : K) (v : V) : List (K × V) :=
  if (find? k m x).isSome then m else m ++ [(x, v)]

/-- Write through the position a lookup of `x` has found. -/
def modify (m : List (K × V)) (x : K) (f : V → V) : List (K × V) :=
  m.map fun e => if k.same e.1 x then (e.1, f e.2) else e

def erase (m : List (K × V)) (x : K) : List (K × V) := m.filter fun e => !k.same e.1 x

@[simp] theorem find?_nil (x : K) : find? k ([] : List (K × V)) x = none := rfl

theorem find?_cons (e : K × V) (m : List (K × V)) (x : K) :
    find? k (e :: m) x = if k.same e.1 x then some e.2 else find? k m x := by
  unfold find?
  by_cases h : k.same e.1 x = true <;> simp [h]

theorem find?_mem {m : List (K × V)} {x : K} {v : V} (h : find? k m x = some v) :
    ∃ y, (y, v) ∈ m := by
  obtain ⟨e, he, rfl⟩ := Option.map_eq_some_iff.mp h
  exact ⟨e.1, mem_of_find?_eq_some he⟩

theorem find?_congr {x y : K} (h : k.same x y = true) (m : List (K × V)) :
    find? k m x = find? k m y := by
  induction m with
  | nil => rfl
  | cons e m ih => rw [find?_cons, find?_cons, ih, k.same_congr_right h]

theorem find?_append_single (m : List (K × V)) (y : K) (v : V) (x : K) :
    find? k (m ++ [(y, v)]) x = (find? k m x).or (if k.same y x then some v else none) := by
  induction m with
  | nil => simp [find?_cons]
  | cons e m ih => rw [cons_append, find?_cons, find?_cons, ih]; split <;> simp

theorem find?_insert (m : List (K × V)) (y : K) (v : V) (x : K) :
    find? k (insert k m y v) x =
      (find? k m x).or (if k.same y x then some v else none) := by
  unfold insert
  split
  · rename_i hs
    by_cases h : k.same y x = true
    · rw [find?_congr k h] at hs
      obtain ⟨w, hw⟩ := Option.isSome_iff_exists.mp hs
      simp [hw]
    · simp [h]
  · exact find?_append_single k m y v x

theorem mem_insert {m : List (K × V)} {x : K} {v : V} {e : K × V} (h : e ∈ insert k m x v) :
    e ∈ m ∨ e = (x, v) := by
  unfold insert at h
  split at h
  · exact .inl h
  · simpa using h

theorem find?_modify (m : List (K × V)) (y : K) (f : V → V) (x : K) :
    find? k (modify k m y f) x =
      if k.same y x then (find? k m x).map f else find? k m x := by
  induction m with
  | nil => simp [modify]
  | cons e m ih =>
    have hm : modify k (e :: m) y f =
        (if k.same e.1 y then (e.1, f e.2) else e) :: modify k m y f := rfl
    rw [hm, find?_cons, find?_cons, ih]
    by_cases hx : k.same e.1 x = true
    · have hy : k.same e.1 y = k.same y x := by
        rw [k.same_congr_left hx, k.same_comm]
      by_cases h : k.same y x = true <;> simp [hx, hy, h]
    · by_cases hy : k.same e.1 y = true <;> simp [hx, hy]

theorem find?_erase (m : List (K × V)) (y x : K) :
    find? k (erase k m y) x = if k.same y x then none else find? k m x := by
  induction m with
  | nil => simp [erase]
  | cons e m ih =>
    by_cases hy : k.same e.1 y = true
    · have he : erase k (e :: m) y = erase k m y := by simp [erase, hy]
      rw [he, ih, find?_cons, k.same_congr_left hy]
      by_cases h : k.same y x = true <;> simp [h]
    · have he : erase k (e :: m) y = e :: erase k m y := by simp [erase, hy]
      rw [he, find?_cons, find?_cons, ih]
      by_cases hx : k.same e.1 x = true
      · have hn : ¬ k.same y x = true := by
          intro h; exact hy (k.equiv.trans hx (k.equiv.symm h))
        simp [hx, hn]
      · simp [hx]

variable {k}

/-! ## An index of a list -/

section Index

variable {α : Type} {key : α → Option K} {items : List α} {m : List (K × Nat)}

/-- The map gives for a key the position of an item that has it, and for a key that no
item has nothing. -/
structure Indexes (k : Keys K) (key : α → Option K) (items : List α) (m : List (K × Nat)) :
    Prop where
  found : ∀ {x i}, find? k m x = some i →
    ∃ a y, items[i]? = some a ∧ key a = some y ∧ k.same y x = true
  missing : ∀ {x}, find? k m x = none → ∀ a ∈ items, ∀ y, key a = some y → k.same y x = false

theorem Indexes.nil : Indexes k key [] [] := ⟨nofun, nofun⟩

/-- A new item goes to the end, and its key into the map. A key that is there already
keeps its item. -/
theorem Indexes.push (h : Indexes k key items m) (a : α) :
    Indexes k key (items ++ [a])
      ((key a).elim m fun y => insert k m y ((items ++ [a]).length - 1)) := by
  have hlast : (items ++ [a]).length - 1 = items.length := by simp
  have hold : ∀ {x i}, find? k m x = some i →
      ∃ b y, (items ++ [a])[i]? = some b ∧ key b = some y ∧ k.same y x = true := by
    intro x i hi
    obtain ⟨b, y, hb, hy⟩ := h.found hi
    exact ⟨b, y, by rw [getElem?_append_left (List.getElem?_eq_some_iff.mp hb).1, hb], hy⟩
  cases hkey : key a with
  | none =>
    refine ⟨hold, fun hx b hb y hy => ?_⟩
    rcases mem_append.mp hb with hb | hb
    · exact h.missing hx b hb y hy
    · rw [mem_singleton.mp hb, hkey] at hy
      cases hy
  | some z =>
    rw [Option.elim_some, hlast]
    constructor
    · intro x i hi
      rw [find?_insert] at hi
      rcases Option.or_eq_some_iff.mp hi with hi | ⟨-, hi⟩
      · exact hold hi
      · split at hi
        · next hsame =>
          cases hi
          exact ⟨a, z, by simp, hkey, hsame⟩
        · cases hi
    · intro x hx b hb y hy
      rw [find?_insert, Option.or_eq_none_iff] at hx
      rcases mem_append.mp hb with hb | hb
      · exact h.missing hx.1 b hb y hy
      · rw [mem_singleton.mp hb, hkey] at hy
        cases hy
        by_contra hsame
        rw [if_pos (eq_true_of_ne_false hsame)] at hx
        cases hx.2

end Index

end NetBox.Lib.KeyMap
