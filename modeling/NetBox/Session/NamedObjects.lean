import NetBox.Lib.Run
import NetBox.Session.SiteList

/-! # Lists of named objects

`TNamedObjectList` is to keep its hidden objects in front, count them, and keep both
parts in the order of `Compare` while automatic sorting is on. The count is kept by
three ways that do not know of each other: `Add` without sorting, `Notify` on deletion,
and nobody for an object that `Add` inserts at its place. Setting the flag sorts
nothing.

An object is its name here, for the list reads nothing else of it. A null pointer that
is dereferenced ends the run.
-/
namespace NetBox.Session

open Base.Text Lib.SortedSearch Lib.Run List

structure TNamedObjectList where
  items : List UnicodeString := []
  hiddenCount : Int := 0
  autoSort : Bool := true
  deriving DecidableEq

inductive ListOp
  | add (name : UnicodeString)
  | delete (index : Nat)
  | setAutoSort (value : Bool)

namespace TNamedObjectList

variable (api : CompareApi) (list : TNamedObjectList)

def getCount : Int := list.items.length - list.hiddenCount

/-- `TObjectList::GetObj`, which tests the index with the virtual `GetCount`. -/
def getObj (index : Nat) : Option UnicodeString :=
  if index < list.getCount then list.items[index]? else none

def getSortObject (name : UnicodeString) : Option (UnicodeString ⊕ Nat) :=
  search (api.compare · name) list.getObj 0 list.items.length 0

def add (name : UnicodeString) : Option TNamedObjectList :=
  if !list.autoSort && isHidden name then
    some { list with items := name :: list.items, hiddenCount := list.hiddenCount + 1 }
  else if list.autoSort then
    match list.getSortObject api name with
    | none => none
    | some (.inl _) => some list
    | some (.inr position) => some { list with items := insertAt list.items position name }
  else some { list with items := list.items ++ [name] }

/-- `Delete`, with the count as `Notify` keeps it. -/
def delete (index : Nat) : TNamedObjectList :=
  match list.items[index]? with
  | none => list
  | some name =>
    { list with
      items := list.items.eraseIdx index
      hiddenCount :=
        if isHidden name && decide (0 ≤ list.hiddenCount) then list.hiddenCount - 1
        else list.hiddenCount }

def step : ListOp → Option TNamedObjectList
  | .add name => list.add api name
  | .delete index => some (list.delete index)
  | .setAutoSort value => some { list with autoSort := value }

/-! ## The order of the list -/

/-- The counted hidden objects, then the visible ones, both in order. -/
def InOrder : Prop :=
  ∃ hidden visible, list.items = hidden ++ visible ∧ list.hiddenCount = hidden.length ∧
    (∀ name ∈ hidden, isHidden name = true) ∧ (∀ name ∈ visible, isHidden name = false) ∧
    hidden.Pairwise (api.compare · · ≤ 0) ∧ visible.Pairwise (api.compare · · ≤ 0)

/-- What automatic sorting promises. -/
def Kept : Prop := list.autoSort = true → list.InOrder api

/-- The search for a name reads no position from `GetCount` on: no hidden object is counted,
or the search turns to the left before. Among `n` objects it comes to the positions
`n - 1 - n / 2 ^ (j + 1)` as long as it goes to the right. -/
def ReadsBelow (name : UnicodeString) : Prop :=
  list.items = [] ∨ list.hiddenCount ≤ 0 ∨
    ∃ j x, list.getObj (list.items.length - 1 - list.items.length / 2 ^ (j + 1)) = some x ∧
      0 ≤ api.compare x name

/-- The operations that keep the promise: while sorting is on a name is looked for below
`GetCount`, and no hidden object is added unless there is one that compares equal; sorting is
not turned on for a list that is not in order. -/
def Fine : ListOp → Prop
  | .add name => list.autoSort = true → list.ReadsBelow api name ∧
      (isHidden name = true → ∃ x ∈ list.items, api.compare x name = 0)
  | .delete _ => True
  | .setAutoSort value => value = true → list.InOrder api

variable {api list}

private theorem eq_filter_append {α : Type} {p : α → Bool} {l : List α}
    (h : l.Pairwise fun a b => p b = true → p a = true) :
    l = l.filter p ++ l.filter (!p ·) := by
  induction l with
  | nil => rfl
  | cons a l ih =>
    rw [pairwise_cons] at h
    by_cases ha : p a = true
    · rw [filter_cons_of_pos ha, filter_cons_of_neg (by simp [ha]), cons_append,
        ← ih h.2]
    · -- behind an item that fails all others fail as well
      have hrest : ∀ b ∈ l, ¬ p b = true := fun b hb hp => ha (h.1 b hb hp)
      rw [filter_cons_of_neg ha, filter_eq_nil_iff.mpr hrest, nil_append,
        filter_eq_self.mpr]
      intro b hb
      rcases mem_cons.mp hb with rfl | hb
      · simp [ha]
      · simp [hrest b hb]

theorem inOrder_iff : list.InOrder api ↔
    list.items.Pairwise (api.compare · · ≤ 0) ∧ list.hiddenCount = list.items.countP isHidden := by
  constructor
  · rintro ⟨hidden, visible, hitems, hcount, hhidden, hvisible, hsorted, hsorted'⟩
    constructor
    · rw [hitems, pairwise_append]
      refine ⟨hsorted, hsorted', fun a ha b hb => ?_⟩
      simp [CompareApi.compare, hhidden a ha, hvisible b hb]
    · have hnone : visible.countP isHidden = 0 :=
        countP_eq_zero.mpr fun a ha => by simp [hvisible a ha]
      rw [hcount, hitems, countP_append, countP_eq_length.mpr hhidden, hnone,
        Nat.add_zero]
  · rintro ⟨hsorted, hcount⟩
    have hfront : list.items.Pairwise fun a b => isHidden b = true → isHidden a = true := by
      refine hsorted.imp fun {a b} hab hb => ?_
      by_contra ha
      rw [Bool.not_eq_true] at ha
      simp [CompareApi.compare, ha, hb] at hab
    refine ⟨list.items.filter isHidden, list.items.filter (!isHidden ·), eq_filter_append hfront,
      ?_, fun a ha => (mem_filter.mp ha).2, fun a ha => ?_, hsorted.filter _,
      hsorted.filter _⟩
    · rw [hcount, countP_eq_length_filter]
    · simpa using (mem_filter.mp ha).2

/-! ## One operation -/

theorem getSortObject_outcome (h : list.items.Pairwise (api.compare · · ≤ 0))
    (name : UnicodeString) :
    Outcome (api.compare · name) list.items (list.getSortObject api name) := by
  refine search_all (api.compare_isComparison.weaklyAscending id h name) fun i _ => ?_
  rw [getObj]
  split
  · exact .inl rfl
  · exact .inr rfl

theorem getSortObject_ne_none_iff {name : UnicodeString} :
    list.getSortObject api name ≠ none ↔ list.ReadsBelow api name := by
  have hget : ∀ i < list.items.length, i < list.getCount → list.getObj i ≠ none := by
    intro i hi hcount
    rw [getObj, if_pos hcount, getElem?_eq_getElem hi]
    exact Option.some_ne_none _
  have hcount : list.getCount = list.items.length - list.hiddenCount := rfl
  rw [getSortObject, ReadsBelow]
  by_cases hempty : list.items = []
  · exact iff_of_true (search_reads fun i hi => by simp [hempty] at hi) (.inl hempty)
  by_cases hnone : list.hiddenCount ≤ 0
  · exact iff_of_true (search_reads fun i hi => hget i hi (by omega)) (.inr (.inl hnone))
  have hlen := length_pos_iff.mpr hempty
  have hiff := @search_ne_none_iff _ (api.compare · name) list.getObj list.getCount.toNat 0
    list.items.length 0 (fun i hi => hget i (by omega) (by omega))
    (fun i hi => by rw [getObj, if_neg (by omega)]) hlen (by omega)
  simpa only [hempty, hnone, false_or, Nat.sub_zero] using hiff

/-- An object at its place keeps the order, and the count is right only for a visible
one. -/
theorem inOrder_insertAt (h : list.InOrder api) {name : UnicodeString} {p : Nat}
    (hp : IsPlace (api.compare · name) list.items p) :
    InOrder api { list with items := insertAt list.items p name } ↔ isHidden name = false := by
  obtain ⟨hsorted, hcount⟩ := inOrder_iff.mp h
  have hpairwise : (insertAt list.items p name).Pairwise (api.compare · · ≤ 0) := by
    refine pairwise_insertAt hsorted (fun a ha => Int.le_of_lt (hp.1 a ha)) fun a ha => ?_
    exact Int.le_of_lt ((api.compare_isComparison.swap a name).mp (hp.2 a ha))
  rw [inOrder_iff]
  simp only [hpairwise, true_and, (insertAt_perm list.items p name).countP_eq, countP_cons,
    hcount]
  cases isHidden name with
  | false => simp
  | true =>
    rw [if_pos rfl]
    exact iff_of_false (by omega) nofun

theorem add_kept {name : UnicodeString} (h : list.Kept api) :
    (∃ next, list.add api name = some next ∧ next.Kept api) ↔ list.Fine api (.add name) := by
  cases hsort : list.autoSort with
  | false =>
    refine iff_of_true ?_ fun hon => by rw [hsort] at hon; cases hon
    cases hhidden : isHidden name with
    | false =>
      exact ⟨{ list with items := list.items ++ [name] }, by simp [add, hsort, hhidden],
        fun hon => by rw [hsort] at hon; cases hon⟩
    | true =>
      exact ⟨{ list with items := name :: list.items, hiddenCount := list.hiddenCount + 1 },
        by simp [add, hsort, hhidden], fun hon => by rw [hsort] at hon; cases hon⟩
  | true =>
    have horder := h hsort
    have hout := getSortObject_outcome (inOrder_iff.mp horder).1 name
    have hreads := @getSortObject_ne_none_iff api list name
    simp only [add, Fine, hsort, Bool.not_true, Bool.false_and, Bool.false_eq_true, if_false,
      if_true, forall_const]
    rw [← hreads]
    generalize list.getSortObject api name = result at hout
    cases hout with
    | failed => exact iff_of_false nofun fun hfine => hfine.1 rfl
    | @found x hx hzero =>
      exact iff_of_true ⟨list, rfl, h⟩ ⟨Option.some_ne_none _, fun _ => ⟨x, hx, hzero⟩⟩
    | @place p _ hp =>
      have hiff := inOrder_insertAt horder hp
      rw [hsort] at hiff
      have hnew : ¬ ∃ x ∈ list.items, api.compare x name = 0 := fun ⟨x, hx, hzero⟩ =>
        hp.ne_zero hx hzero
      simp [Kept, hiff, hnew]

theorem delete_inOrder (h : list.InOrder api) (index : Nat) : (list.delete index).InOrder api := by
  rw [delete]
  cases hname : list.items[index]? with
  | none => exact h
  | some name =>
    obtain ⟨hsorted, hcount⟩ := inOrder_iff.mp h
    obtain ⟨hindex, rfl⟩ := List.getElem?_eq_some_iff.mp hname
    refine inOrder_iff.mpr ⟨hsorted.sublist (eraseIdx_sublist ..), ?_⟩
    have hperm : list.items.countP isHidden =
        (list.items.eraseIdx index).countP isHidden +
          if isHidden list.items[index] = true then 1 else 0 := by
      rw [eraseIdx_eq_take_drop_succ, ← countP_cons, ← perm_middle.countP_eq,
        ← drop_eq_getElem_cons, take_append_drop]
    dsimp only
    cases hhidden : isHidden list.items[index] with
    | false =>
      rw [hhidden, if_neg Bool.false_ne_true, Nat.add_zero] at hperm
      rw [hcount, hperm]
      rfl
    | true =>
      rw [hhidden, if_pos rfl] at hperm
      rw [hcount, hperm, Bool.true_and, if_pos (decide_eq_true (Int.natCast_nonneg _))]
      omega

theorem delete_autoSort (index : Nat) : (list.delete index).autoSort = list.autoSort := by
  rw [delete]
  split <;> rfl

/-- An operation returns and keeps the promise exactly when it is one of the fine ones. -/
theorem step_kept {op : ListOp} (h : list.Kept api) :
    (∃ next, list.step api op = some next ∧ next.Kept api) ↔ list.Fine api op := by
  cases op with
  | add name => exact add_kept h
  | delete index =>
    refine iff_of_true ⟨_, rfl, fun hsort => ?_⟩ trivial
    rw [delete_autoSort] at hsort
    exact delete_inOrder (h hsort) index
  | setAutoSort value => exact ⟨fun ⟨_, hstep, hkept⟩ => by cases hstep; exact hkept,
      fun hfine => ⟨_, rfl, hfine⟩⟩

/-- In every run whose operations are all fine the list is in order whenever
automatic sorting is on, and any other operation ends that or dereferences a null pointer. -/
theorem namedObjects_order (api : CompareApi) :
    (∀ list, Reaches (step api) (Fine api) {} list → list.Kept api) ∧
    ∀ (list : TNamedObjectList) op, list.Kept api →
      ((∃ next, list.step api op = some next ∧ next.Kept api) ↔ list.Fine api op) := by
  refine ⟨fun list hreach => ?_, fun list op => step_kept⟩
  refine hreach.invariant (P := (Kept api ·)) (fun _ => ?_) fun t op u ht hfine hstep => ?_
  · exact ⟨[], [], rfl, rfl, nofun, nofun, .nil, .nil⟩
  · obtain ⟨next, hnext, hkept⟩ := (step_kept ht).mpr hfine
    exact Option.some.inj (hnext.symm.trans hstep) ▸ hkept

/-- The first object of a new list, when it is hidden, is not counted. -/
theorem namedObjects_hidden_uncounted : ∃ list,
    step ordinalApi {} (.add (wstr "_!_x")) = some list ∧ list.autoSort = true ∧
      list.items = [wstr "_!_x"] ∧ list.hiddenCount = 0 ∧ ¬ list.InOrder ordinalApi := by
  refine ⟨{ items := [wstr "_!_x"] }, ?_, rfl, rfl, rfl, fun h => ?_⟩
  · simp [step, add, getSortObject, search, insertAt]
  · have hcount := (inOrder_iff.mp h).2
    revert hcount
    decide

/-! ## Looking a name up -/

section FindByName

variable (api list) (c : Collation)

/-- `FindByName` with either search. An object at a position that `GetObj` does not give
is skipped by the one and dereferenced by the other. -/
def findByName (name : UnicodeString) : Option (Option UnicodeString) :=
  if list.autoSort then (list.getSortObject api name).map Sum.getLeft?
  else some (((List.range list.items.length).filterMap list.getObj).find? (c.text.same · name))

end FindByName

/-- Texts up to the bit that tells small letters from capitals. -/
def ignoringCase : Collation where
  keys := .ofDecEq _
  text := .ofView (List.map (· &&& 0xFFDF))

end TNamedObjectList

end NetBox.Session
