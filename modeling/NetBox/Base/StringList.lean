import Mathlib.Data.List.Perm.Subperm
import Mathlib.Data.List.Lex
import NetBox.Base.Text
import NetBox.Lib.SortedSearch
import NetBox.Lib.QuickSort

/-! # String lists with objects

A `TStringList` keeps its strings and their objects in two vectors that every operation has to
change in the same way. In sorted mode strings are found by bisection, in the order of the
comparison that is in force.
-/
namespace NetBox.Base.Text
open Lib.SortedSearch Lib.QuickSort List

/-- `AnsiCompareStr` and `AnsiCompareText`. -/
structure Comparisons where
  str : UnicodeString → UnicodeString → Int
  text : UnicodeString → UnicodeString → Int
  isStr : IsComparison str
  isText : IsComparison text

/-- `CompareStrings`. -/
def Comparisons.compareStrings (t : Comparisons) (caseSensitive : Bool) :
    UnicodeString → UnicodeString → Int :=
  if caseSensitive then t.str else t.text

theorem Comparisons.isComparison (t : Comparisons) (caseSensitive : Bool) :
    IsComparison (t.compareStrings caseSensitive) := by
  cases caseSensitive with
  | false => exact t.isText
  | true => exact t.isStr

inductive TDuplicatesEnum
  | dupAccept
  | dupError
  | dupIgnore

structure TStringList (α : Type) where
  strings : List UnicodeString := []
  objects : List (Option α) := []
  sorted : Bool := false
  caseSensitive : Bool := false
  duplicates : TDuplicatesEnum := .dupAccept
  same : strings.length = objects.length := by rfl

inductive ListError
  | duplicateString
  | listIndexError (index : Int)

namespace TStringList
variable {α : Type} (t : Comparisons) (s : TStringList α)

/-- The list after a call, and what the call returns or throws. There is none where a vector is
used at a position that it does not have. -/
abbrev Outcome (α β : Type) : Type := Option (TStringList α × Except ListError β)

def readAt {γ : Type} (l : List γ) (index : Int) : Option γ :=
  if 0 ≤ index then l[index.toNat]? else none

def count : Int := s.strings.length

def inserted (p : Nat) (str : UnicodeString) (object : Option α) : TStringList α :=
  { s with
    strings := insertAt s.strings p str
    objects := insertAt s.objects p object
    same := by simp [insertAt, s.same] }

/-- `InsertItem`, with the index for the callers that return it. -/
def insertItem (index : Int) (str : UnicodeString) (object : Option α) : Outcome α Int :=
  if index = -1 ∨ s.count < index then some (s, .error (.listIndexError index))
  else if 0 ≤ index then some (s.inserted index.toNat str object, .ok index)
  else none

def find (str : UnicodeString) (leftmost : Bool) : Int × Bool :=
  if s.sorted then
    let (h, found) := bisect (t.compareStrings s.caseSensitive · str) leftmost s.strings 0
      s.strings.length false
    (if leftmost then h else if found then h - 1 else h, found)
  else
    match s.strings.findIdx? (t.compareStrings s.caseSensitive · str = 0) with
    | some index => (index, true)
    | none => (-1, false)

def addObject (str : UnicodeString) (object : Option α) : Outcome α Int :=
  if s.sorted then
    let (index, found) := s.find t str false
    if found then
      match s.duplicates with
      | .dupIgnore => some (s, .ok index)
      | .dupError => some (s, .error .duplicateString)
      | .dupAccept => s.insertItem (index + 1) str object
    else s.insertItem index str object
  else s.insertItem s.count str object

def add (str : UnicodeString) : Outcome α Int := s.addObject t str none

/-- The strings of another list. -/
def addStrings : TStringList α → List (UnicodeString × Option α) → Outcome α Unit
  | s, [] => some (s, .ok ())
  | s, (str, object) :: rest =>
    match s.addObject t str object with
    | none => none
    | some (s, .error e) => some (s, .error e)
    | some (s, .ok _) => addStrings s rest

def append (value : UnicodeString) : Outcome α Int := s.insertItem s.count value none

def deleted (p : Nat) : TStringList α :=
  { s with
    strings := s.strings.eraseIdx p
    objects := s.objects.eraseIdx p
    same := by simp [length_eraseIdx, s.same] }

def delete (index : Int) : Outcome α Unit :=
  if index = -1 ∨ s.count ≤ index then some (s, .error (.listIndexError index))
  else if 0 ≤ index then some (s.deleted index.toNat, .ok ())
  else none

/-- `GetStringRef`. A string is made where the list ends. -/
def getString (index : Int) : Outcome α UnicodeString :=
  if index = -1 ∨ s.count < index then some (s, .error (.listIndexError index))
  else
    (if index = s.count then s.insertItem index [] none else some (s, .ok index)).bind
      fun (s, _) => (readAt s.strings index).map fun str => (s, .ok str)

/-- `StringListCompareStrings`. -/
def compareItems (index1 index2 : Int) : Option Int :=
  (readAt s.strings index1).bind fun str1 =>
    (readAt s.strings index2).map fun str2 => t.compareStrings s.caseSensitive str1 str2

def exchangeItems (index1 index2 : Int) : Option (TStringList α) :=
  (readAt s.strings index1).bind fun sItem1 =>
    (readAt s.objects index1).bind fun oItem1 =>
      (readAt s.strings index2).bind fun sItem2 =>
        (readAt s.objects index2).map fun oItem2 =>
          { s with
            strings := (s.strings.set index1.toNat sItem2).set index2.toNat sItem1
            objects := (s.objects.set index1.toNat oItem2).set index2.toNat oItem1
            same := by simp [s.same] }

def sort : Option (TStringList α) :=
  if !s.sorted && 1 < s.count then
    quickSort (compareItems t) exchangeItems s.strings.length s 0 (s.count - 1)
  else some s

def setSorted (value : Bool) : Option (TStringList α) :=
  if value ≠ s.sorted then
    (if value then s.sort t else some s).map fun s => { s with sorted := value }
  else some s

def setCaseSensitive (value : Bool) : Option (TStringList α) :=
  if value ≠ s.caseSensitive then
    let s := { s with caseSensitive := value }
    if s.sorted then s.sort t else some s
  else some s

/-! ## Strings and objects together -/

def pairs : List (UnicodeString × Option α) := s.strings.zip s.objects

theorem map_fst_pairs : s.pairs.map Prod.fst = s.strings :=
  map_fst_zip (Nat.le_of_eq s.same)

theorem length_pairs : s.pairs.length = s.strings.length := by
  rw [← s.map_fst_pairs, length_map]

/-- In sorted mode the strings are in the order of the comparison. -/
def Ordered : Prop :=
  s.sorted = true → s.strings.Pairwise fun a b => t.compareStrings s.caseSensitive a b ≤ 0

variable {t s}

theorem insertItem_eq {p : Nat} (hp : p ≤ s.strings.length) (str : UnicodeString)
    (object : Option α) :
    s.insertItem p str object = some (s.inserted p str object, .ok (p : Int)) := by
  rw [insertItem, if_neg (by simp only [count]; omega), if_pos (by omega), Int.toNat_natCast]

theorem pairs_inserted (p : Nat) (str : UnicodeString) (object : Option α) :
    (s.inserted p str object).pairs = insertAt s.pairs p (str, object) := by
  simp only [pairs, inserted, insertAt]
  rw [zip_append (by simp [s.same]), zip_cons_cons]
  simp only [zip_eq_zipWith, take_zipWith, drop_zipWith]

theorem pairs_deleted (p : Nat) : (s.deleted p).pairs = s.pairs.eraseIdx p := by
  rw [pairs, deleted]
  simp only [eraseIdx_eq_take_drop_succ]
  rw [zip_append (by simp [s.same])]
  simp only [pairs, zip_eq_zipWith, take_zipWith, drop_zipWith]

/-! ## Looking up -/

/-- A string is found just when an equal one is in the list. -/
theorem find_iff (h : s.Ordered t) (str : UnicodeString) (leftmost : Bool) :
    (s.find t str leftmost).2 = true ↔
      ∃ x ∈ s.strings, t.compareStrings s.caseSensitive x str = 0 := by
  rw [find]
  split
  next hsorted =>
    have hasc := (t.isComparison s.caseSensitive).weaklyAscending id (h hsorted) str
    have hnarrow := bisect_narrowed hasc (narrowed_all s.strings leftmost)
    simp only [id_eq] at hnarrow
    constructor
    · exact hnarrow.met
    · rintro ⟨x, hx, hzero⟩
      by_contra hfound
      have hplace := Bool.eq_false_iff.mpr hfound
      exact IsPlace.ne_zero ⟨hnarrow.before hplace, hnarrow.behind hplace⟩ hx hzero
  next hsorted =>
    cases hfind : s.strings.findIdx? (t.compareStrings s.caseSensitive · str = 0) with
    | none => simpa [findIdx?_eq_none_iff] using hfind
    | some index =>
      obtain ⟨hlt, hzero, -⟩ := findIdx?_eq_some_iff_getElem.mp hfind
      simpa using ⟨s.strings[index], getElem_mem hlt, by simpa using hzero⟩

/-! ## Adding -/

/-- What is done by an operation that adds strings. -/
structure Grows (t : Comparisons) (adds : List (UnicodeString × Option α))
    (s s' : TStringList α) : Prop where
  ordered : s'.Ordered t
  kept : s.pairs.Subperm s'.pairs
  only : s'.pairs.Subperm (adds ++ s.pairs)

theorem grows_inserted (p : Nat) (str : UnicodeString) (object : Option α)
    (h : (s.inserted p str object).Ordered t) :
    Grows t [(str, object)] s (s.inserted p str object) := by
  have hperm := insertAt_perm s.pairs p (str, object)
  rw [← pairs_inserted] at hperm
  exact ⟨h, (sublist_cons_self _ _).subperm.trans hperm.symm.subperm, hperm.subperm⟩

theorem Grows.none (h : s.Ordered t) (adds : List (UnicodeString × Option α)) :
    Grows t adds s s :=
  ⟨h, List.Subperm.refl _, (sublist_append_right adds s.pairs).subperm⟩

/-- `AddObject` puts the string behind those that are not greater. -/
theorem addObject_grows (h : s.Ordered t) (str : UnicodeString) (object : Option α) :
    ∃ s' r, s.addObject t str object = some (s', r) ∧ Grows t [(str, object)] s s' := by
  rw [addObject]
  split
  next hsorted =>
    have hcmp := t.isComparison s.caseSensitive
    have hasc := hcmp.weaklyAscending id (h hsorted) str
    have hnarrow := bisect_narrowed hasc (narrowed_all s.strings false)
    simp only [id_eq] at hnarrow
    rw [find, if_pos hsorted]
    generalize bisect (t.compareStrings s.caseSensitive · str) false s.strings 0
      s.strings.length false = result at hnarrow
    obtain ⟨p, found⟩ := result
    have hlen := hnarrow.bound
    obtain ⟨hbefore, hbehind⟩ := hnarrow.sides rfl
    have hgrows := grows_inserted (t := t) p str object fun _ =>
      pairwise_insertAt (h hsorted) hbefore
        fun y hy => Int.le_of_lt ((hcmp.swap y str).mp (hbehind y hy))
    cases found with
    | false => exact ⟨_, _, insertItem_eq hlen str object, hgrows⟩
    | true =>
      dsimp only
      cases s.duplicates with
      | dupIgnore => exact ⟨s, _, rfl, .none h _⟩
      | dupError => exact ⟨s, _, rfl, .none h _⟩
      | dupAccept =>
        have hindex : (p : Int) - 1 + 1 = p := by omega
        exact ⟨_, _, by rw [if_pos rfl]; simpa [hindex] using insertItem_eq hlen str object, hgrows⟩
  next hsorted =>
    exact ⟨_, _, insertItem_eq (Nat.le_refl _) str object,
      grows_inserted _ str object fun hs => absurd hs hsorted⟩

theorem addStrings_grows (h : s.Ordered t) (items : List (UnicodeString × Option α)) :
    ∃ s' r, s.addStrings t items = some (s', r) ∧ Grows t items s s' := by
  induction items generalizing s with
  | nil => exact ⟨s, _, rfl, .none h _⟩
  | cons item rest ih =>
    obtain ⟨str, object⟩ := item
    obtain ⟨s₁, r, hadd, hgrows⟩ := addObject_grows h str object
    rw [addStrings, hadd]
    cases r with
    | error e =>
      refine ⟨s₁, _, rfl, hgrows.ordered, hgrows.kept, hgrows.only.trans ?_⟩
      exact ((sublist_append_right rest s.pairs).cons_cons (str, object)).subperm
    | ok index =>
      obtain ⟨s₂, r₂, hrest, hgrows₂⟩ := ih hgrows.ordered
      refine ⟨s₂, r₂, hrest, hgrows₂.ordered, hgrows.kept.trans hgrows₂.kept,
        hgrows₂.only.trans ?_⟩
      have hmove : (rest ++ ([(str, object)] ++ s.pairs)).Perm ((str, object) :: rest ++ s.pairs) :=
        perm_middle
      exact ((subperm_append_left rest).mpr hgrows.only).trans hmove.subperm

/-! ## Sorting -/

theorem zip_set {γ δ : Type} (l : List γ) (l' : List δ) (p : Nat) (x : γ) (y : δ) :
    (l.set p x).zip (l'.set p y) = (l.zip l').set p (x, y) := by
  induction l generalizing l' p with
  | nil => simp
  | cons a l ih =>
    cases l' with
    | nil => simp
    | cons b l' =>
      cases p with
      | zero => rfl
      | succ p => simp [ih]

/-- The pair at a position. -/
def item (s : TStringList α) (k : Int) : UnicodeString × Option α :=
  (readAt s.pairs k).getD ([], none)

theorem item_natCast (s : TStringList α) (p : Nat) : s.item p = s.pairs[p]?.getD ([], none) := by
  rw [item, readAt, if_pos (Int.natCast_nonneg p), Int.toNat_natCast]

theorem item_eq {p : Nat} (hp : p < s.strings.length) :
    s.item p = (s.strings[p], s.objects.get ⟨p, s.same ▸ hp⟩) := by
  simp [item_natCast, pairs, hp, s.same ▸ hp]

theorem readAt_item {k : Int} (hk : 0 ≤ k) (hlt : k < s.count) :
    readAt s.strings k = some (s.item k).1 ∧ readAt s.objects k = some (s.item k).2 := by
  obtain ⟨p, rfl⟩ := Int.eq_ofNat_of_zero_le hk
  have hp : p < s.strings.length := Int.ofNat_lt.mp hlt
  rw [item_eq hp]
  simp [readAt, hp, s.same ▸ hp]

/-- The lists that a sort goes through. -/
structure Rearranged (s s' : TStringList α) : Prop where
  perm : s'.pairs.Perm s.pairs
  sorted : s'.sorted = s.sorted
  caseSensitive : s'.caseSensitive = s.caseSensitive

theorem Rearranged.count_eq {s' : TStringList α} (h : Rearranged s s') : s'.count = s.count := by
  rw [count, count, ← length_pairs, h.perm.length_eq, length_pairs]

theorem exchangeItems_eq {p q : Nat} (hp : p < s.strings.length) (hq : q < s.strings.length) :
    ∃ s', s.exchangeItems p q = some s' ∧ Rearranged s s' ∧
      s'.pairs = (s.pairs.set p (s.item q)).set q (s.item p) := by
  obtain ⟨hpstr, hpobj⟩ := readAt_item (Int.natCast_nonneg p) (Int.ofNat_lt.mpr hp)
  obtain ⟨hqstr, hqobj⟩ := readAt_item (Int.natCast_nonneg q) (Int.ofNat_lt.mpr hq)
  rw [exchangeItems, hpstr, hpobj, hqstr, hqobj]
  refine ⟨_, rfl, ?_, by simp only [pairs, zip_set, Int.toNat_natCast]⟩
  refine ⟨?_, rfl, rfl⟩
  simp only [pairs, zip_set, Int.toNat_natCast]
  rw [← length_pairs] at hp hq
  rw [item_natCast, item_natCast, getElem?_eq_getElem hp, getElem?_eq_getElem hq]
  exact set_set_perm hp hq

theorem sortable (s : TStringList α) :
    Sortable (fun a b => t.compareStrings s.caseSensitive a.1 b.1) (compareItems t) exchangeItems
      (Rearranged s) item s.count where
  compares s' i j h hi hin hj hjn := by
    rw [← h.count_eq] at hin hjn
    rw [compareItems, (readAt_item hi hin).1, (readAt_item hj hjn).1, h.caseSensitive]
    rfl
  exchanges s' i j h hi hin hj hjn := by
    rw [← h.count_eq] at hin hjn
    obtain ⟨p, rfl⟩ := Int.eq_ofNat_of_zero_le hi
    obtain ⟨q, rfl⟩ := Int.eq_ofNat_of_zero_le hj
    have hp : p < s'.strings.length := Int.ofNat_lt.mp hin
    have hq : q < s'.strings.length := Int.ofNat_lt.mp hjn
    obtain ⟨s'', hexchange, hs'', hpairs⟩ := exchangeItems_eq hp hq
    rw [← length_pairs] at hp hq
    refine ⟨s'', hexchange, ⟨hs''.perm.trans h.perm, hs''.sorted.trans h.sorted,
      hs''.caseSensitive.trans h.caseSensitive⟩, ?_, ?_, fun k hki hkj => ?_⟩
    · rw [item_natCast s'', hpairs]
      by_cases hpq : q = p
      · simp [hpq, hp]
      · rw [getElem?_set_ne hpq, getElem?_set_self hp]
        rfl
    · rw [item_natCast s'', hpairs,
        getElem?_set_self (by rwa [length_set])]
      rfl
    · rw [item, item, hpairs, readAt, readAt]
      split
      · rw [getElem?_set_ne (by omega), getElem?_set_ne (by omega)]
      · rfl

theorem sort_spec (s : TStringList α) : ∃ s', s.sort t = some s' ∧ Rearranged s s' ∧
    (s.sorted = false →
      s'.strings.Pairwise fun a b => t.compareStrings s.caseSensitive a b ≤ 0) := by
  rw [sort]
  by_cases hrun : (!s.sorted && 1 < s.count) = true
  · rw [if_pos hrun]
    have hcount : 1 < s.count := by simpa using (Bool.and_eq_true_iff.mp hrun).2
    have hcmp : IsComparison fun a b : UnicodeString × Option α =>
        t.compareStrings s.caseSensitive a.1 b.1 :=
      ⟨fun a b => (t.isComparison _).swap a.1 b.1, fun a b c => (t.isComparison _).trans a.1 b.1 c.1⟩
    obtain ⟨s', hsort, hs', -, hle⟩ := quickSort_spec (sortable (t := t) s) hcmp
      s.strings.length (s := s) (r := s.count - 1) ⟨.refl _, rfl, rfl⟩ (Int.le_refl 0) (by omega)
      (by omega) (by simp only [count]; omega)
    refine ⟨s', hsort, hs', fun _ => ?_⟩
    have hlen : s'.strings.length = s.strings.length := Int.ofNat_inj.mp hs'.count_eq
    rw [pairwise_iff_getElem]
    intro k k' hk hk' hlt
    have hkk' := hle k k' (by omega) (by omega) (by simp only [count]; omega)
    rwa [item_eq hk, item_eq hk'] at hkk'
  · rw [if_neg hrun]
    refine ⟨s, rfl, ⟨.refl _, rfl, rfl⟩, fun hsorted => ?_⟩
    have hshort : s.strings.length ≤ 1 := by
      rw [hsorted, Bool.not_false, Bool.true_and, decide_eq_true_eq, count] at hrun
      omega
    match s.strings, hshort with
    | [], _ => exact .nil
    | [str], _ => exact pairwise_singleton _ _

/-! ## Runs -/

inductive Operation (α : Type)
  | add (str : UnicodeString)
  | addObject (str : UnicodeString) (object : Option α)
  | addStrings (items : List (UnicodeString × Option α))
  | append (value : UnicodeString)
  | delete (index : Int)
  | sort
  | setSorted (value : Bool)
  | setCaseSensitive (value : Bool)
  | getString (index : Int)

/-- The list after an operation, also where it throws. -/
def step (t : Comparisons) (s : TStringList α) : Operation α → Option (TStringList α)
  | .add str => (s.add t str).map Prod.fst
  | .addObject str object => (s.addObject t str object).map Prod.fst
  | .addStrings items => (s.addStrings t items).map Prod.fst
  | .append value => (s.append value).map Prod.fst
  | .delete index => (s.delete index).map Prod.fst
  | .sort => s.sort t
  | .setSorted value => s.setSorted t value
  | .setCaseSensitive value => s.setCaseSensitive t value
  | .getString index => (s.getString index).map Prod.fst

/-- The strings that are added, with their objects. -/
def Operation.adds : Operation α → List (UnicodeString × Option α)
  | .add str | .append str => [(str, none)]
  | .addObject str object => [(str, object)]
  | .addStrings items => items
  | _ => []

/-- What an operation may do to the strings and their objects. -/
def Keeps (s s' : TStringList α) : Operation α → Prop
  | .delete index => s'.pairs = if 0 ≤ index then s.pairs.eraseIdx index.toNat else s.pairs
  | .getString _ => s' = s
  | op => s.pairs.Subperm s'.pairs ∧ s'.pairs.Subperm (op.adds ++ s.pairs)

/-- What is asked of an operation and the list it leaves. -/
structure StepRight (t : Comparisons) (s s' : TStringList α) (op : Operation α) : Prop where
  keeps : Keeps s s' op
  ordered : s'.Ordered t
  found : ∀ str leftmost, (s'.find t str leftmost).2 = true ↔
    ∃ x ∈ s'.strings, t.compareStrings s'.caseSensitive x str = 0

def RunRight (t : Comparisons) : TStringList α → List (Operation α) → Prop
  | _, [] => True
  | s, op :: ops => ∃ s', s.step t op = some s' ∧ StepRight t s s' op ∧ RunRight t s' ops

/-- When an operation does what is asked of it. -/
def Fits (t : Comparisons) (s : TStringList α) : Operation α → Prop
  | .append value => s.sorted = true →
    ∀ str ∈ s.strings, t.compareStrings s.caseSensitive str value ≤ 0
  | .delete index => -1 ≤ index
  | .setCaseSensitive value => s.sorted = true →
    s.strings.Pairwise fun a b => t.compareStrings value a b ≤ 0
  | .getString index => -1 ≤ index ∧ index ≠ s.count
  | _ => True

def RunFits (t : Comparisons) : TStringList α → List (Operation α) → Prop
  | _, [] => True
  | s, op :: ops => Fits t s op ∧ ∀ s', s.step t op = some s' → RunFits t s' ops

theorem StepRight.mk' {s' : TStringList α} {op : Operation α} (hkeeps : Keeps s s' op)
    (hordered : s'.Ordered t) : StepRight t s s' op :=
  ⟨hkeeps, hordered, find_iff hordered⟩

theorem append_eq (s : TStringList α) (value : UnicodeString) :
    s.step t (.append value) = some (s.inserted s.strings.length value none) := by
  rw [step, append, count, insertItem_eq (Nat.le_refl _)]
  rfl

theorem strings_append (s : TStringList α) (value : UnicodeString) :
    (s.inserted s.strings.length value none).strings = s.strings ++ [value] := by
  simp [inserted, insertAt]

theorem append_iff (h : s.Ordered t) (value : UnicodeString) :
    (∃ s', s.step t (.append value) = some s' ∧ StepRight t s s' (.append value)) ↔
      Fits t s (.append value) := by
  have hordered : (s.inserted s.strings.length value none).Ordered t ↔
      Fits t s (.append value) := by
    rw [Ordered, strings_append]
    refine forall_congr' fun hsorted => ?_
    simp only [pairwise_append, pairwise_singleton, mem_singleton, forall_eq,
      true_and]
    exact and_iff_right (h hsorted)
  rw [append_eq, ← hordered]
  constructor
  · rintro ⟨s', hs', hright⟩
    rw [Option.some.inj hs']
    exact hright.ordered
  · intro hs'
    have hgrows := grows_inserted _ value none hs'
    exact ⟨_, rfl, .mk' ⟨hgrows.kept, hgrows.only⟩ hs'⟩

theorem delete_iff (h : s.Ordered t) (index : Int) :
    (∃ s', s.step t (.delete index) = some s' ∧ StepRight t s s' (.delete index)) ↔
      Fits t s (.delete index) := by
  rw [step, delete]
  by_cases hout : index = -1 ∨ s.count ≤ index
  · rw [if_pos hout]
    rw [count] at hout
    refine ⟨fun _ => ?_, fun _ => ⟨s, rfl, .mk' ?_ h⟩⟩
    · show -1 ≤ index
      omega
    · rw [Keeps]
      split
      · rw [eraseIdx_of_length_le (by rw [length_pairs]; omega)]
      · rfl
  · rw [if_neg hout]
    by_cases hindex : 0 ≤ index
    · rw [if_pos hindex]
      refine ⟨fun _ => ?_, fun _ => ⟨_, rfl, .mk' ?_ ?_⟩⟩
      · show -1 ≤ index
        omega
      · rw [Keeps, if_pos hindex, pairs_deleted]
      · exact fun hsorted => (h hsorted).sublist (eraseIdx_sublist _ _)
    · rw [if_neg hindex]
      refine ⟨fun ⟨s', hs', _⟩ => ?_, fun hfits => ?_⟩
      · cases hs'
      · have : -1 ≤ index := hfits
        omega

/-- `CustomSort` leaves a list in sorted mode alone. -/
theorem sort_of_sorted (h : s.sorted = true) : s.sort t = some s := by
  rw [sort, if_neg (by simp [h])]

theorem setCaseSensitive_eq (s : TStringList α) (value : Bool) :
    s.setCaseSensitive t value = some { s with caseSensitive := value } := by
  rw [setCaseSensitive]
  split
  next =>
    dsimp only
    split
    next hsorted => exact sort_of_sorted hsorted
    next => rfl
  next heq =>
    rw [not_not] at heq
    rw [heq]

theorem setCaseSensitive_iff (value : Bool) :
    (∃ s', s.step t (.setCaseSensitive value) = some s' ∧
      StepRight t s s' (.setCaseSensitive value)) ↔ Fits t s (.setCaseSensitive value) := by
  rw [step, setCaseSensitive_eq]
  constructor
  · rintro ⟨s', hs', hright⟩
    rw [← Option.some.inj hs'] at hright
    exact hright.ordered
  · intro hfits
    exact ⟨_, rfl, .mk' ⟨.refl _, .refl _⟩ hfits⟩

theorem getString_iff (h : s.Ordered t) (index : Int) :
    (∃ s', s.step t (.getString index) = some s' ∧ StepRight t s s' (.getString index)) ↔
      Fits t s (.getString index) := by
  rw [step, getString, Fits]
  by_cases hout : index = -1 ∨ s.count < index
  · rw [if_pos hout]
    rw [count] at hout ⊢
    exact ⟨fun _ => by omega, fun _ => ⟨s, rfl, .mk' rfl h⟩⟩
  · rw [if_neg hout]
    by_cases hend : index = s.count
    · -- the list has become longer
      rw [if_pos hend, hend, count, insertItem_eq (Nat.le_refl _)]
      refine ⟨fun ⟨s', hs', hright⟩ => ?_, fun hfits => absurd rfl hfits.2⟩
      have hkeeps : s' = s := hright.keeps
      have hlen : s'.strings = s.strings ++ [[]] := by
        rw [← strings_append]
        cases hread : readAt (s.inserted s.strings.length [] none).strings
            (s.strings.length : Int) with
        | none => simp [hread] at hs'
        | some str =>
          simp only [Option.bind_some, hread, Option.map_some, Option.some.injEq] at hs'
          rw [hs']
      rw [hkeeps] at hlen
      simp at hlen
    · rw [if_neg hend, Option.bind_some]
      dsimp only
      by_cases hindex : 0 ≤ index
      · rw [(readAt_item hindex (by omega)).1]
        exact ⟨fun _ => by omega, fun _ => ⟨s, rfl, .mk' rfl h⟩⟩
      · rw [readAt, if_neg hindex]
        refine ⟨fun ⟨s', hs', _⟩ => ?_, fun hfits => by omega⟩
        cases hs'

theorem sort_right (h : s.Ordered t) :
    ∃ s', s.step t .sort = some s' ∧ StepRight t s s' .sort := by
  by_cases hsorted : s.sorted = true
  · exact ⟨s, sort_of_sorted hsorted, .mk' ⟨.refl _, .refl _⟩ h⟩
  · obtain ⟨s', hsort, hs', -⟩ := sort_spec (t := t) s
    refine ⟨s', hsort, .mk' ⟨hs'.perm.symm.subperm, hs'.perm.subperm⟩ fun hs => ?_⟩
    exact absurd (hs'.sorted ▸ hs) hsorted

theorem setSorted_right (h : s.Ordered t) (value : Bool) :
    ∃ s', s.step t (.setSorted value) = some s' ∧ StepRight t s s' (.setSorted value) := by
  rw [step, setSorted]
  split
  next hne =>
    cases value with
    | false => exact ⟨_, rfl, .mk' ⟨.refl _, .refl _⟩ nofun⟩
    | true =>
      obtain ⟨s', hsort, hs', hordered⟩ := sort_spec (t := t) s
      rw [if_pos rfl, hsort]
      refine ⟨_, rfl, .mk' ⟨hs'.perm.symm.subperm, hs'.perm.subperm⟩ fun _ => ?_⟩
      simpa [hs'.caseSensitive] using hordered (by simpa using hne.symm)
  next => exact ⟨s, rfl, .mk' ⟨.refl _, .refl _⟩ h⟩

/-- What one operation does. -/
theorem step_iff (h : s.Ordered t) (op : Operation α) :
    (∃ s', s.step t op = some s' ∧ StepRight t s s' op) ↔ Fits t s op := by
  have hgrown : ∀ {op : Operation α} {s' : TStringList α}, Grows t op.adds s s' →
      (∀ s', Keeps s s' op = (s.pairs.Subperm s'.pairs ∧ s'.pairs.Subperm (op.adds ++ s.pairs))) →
      StepRight t s s' op := fun hgrows hkeeps =>
    .mk' (by rw [hkeeps]; exact ⟨hgrows.kept, hgrows.only⟩) hgrows.ordered
  cases op with
  | add str =>
    obtain ⟨s', r, hadd, hgrows⟩ := addObject_grows h str none
    refine ⟨fun _ => trivial, fun _ => ⟨s', ?_, hgrown hgrows fun _ => rfl⟩⟩
    rw [step, add, hadd]
    rfl
  | addObject str object =>
    obtain ⟨s', r, hadd, hgrows⟩ := addObject_grows h str object
    refine ⟨fun _ => trivial, fun _ => ⟨s', ?_, hgrown hgrows fun _ => rfl⟩⟩
    rw [step, hadd]
    rfl
  | addStrings items =>
    obtain ⟨s', r, hadd, hgrows⟩ := addStrings_grows h items
    refine ⟨fun _ => trivial, fun _ => ⟨s', ?_, hgrown hgrows fun _ => rfl⟩⟩
    rw [step, hadd]
    rfl
  | append value => exact append_iff h value
  | delete index => exact delete_iff h index
  | sort => exact ⟨fun _ => trivial, fun _ => sort_right h⟩
  | setSorted value => exact ⟨fun _ => trivial, fun _ => setSorted_right h value⟩
  | setCaseSensitive value => exact setCaseSensitive_iff value
  | getString index => exact getString_iff h index

theorem run_iff (h : s.Ordered t) (ops : List (Operation α)) :
    RunRight t s ops ↔ RunFits t s ops := by
  induction ops generalizing s with
  | nil => rfl
  | cons op ops ih =>
    constructor
    · rintro ⟨s', hstep, hright, hrest⟩
      refine ⟨(step_iff h op).mp ⟨s', hstep, hright⟩, fun s'' hs'' => ?_⟩
      rw [hstep] at hs''
      rw [← Option.some.inj hs'']
      exact (ih hright.ordered).mp hrest
    · rintro ⟨hfits, hrest⟩
      obtain ⟨s', hstep, hright⟩ := (step_iff h op).mpr hfits
      exact ⟨s', hstep, hright, (ih hright.ordered).mpr (hrest s' hstep)⟩

/-- A string list is right over a run just when each operation fits: nothing is appended to a
sorted list where it does not belong, a sorted list changes its comparison only where it is in
order already, no string is read where the list ends, and no index is below -1. -/
theorem stringList_right_iff (t : Comparisons) (duplicates : TDuplicatesEnum)
    (ops : List (Operation α)) : RunRight t { duplicates := duplicates } ops ↔
      RunFits t { duplicates := duplicates } ops :=
  run_iff (fun hsorted => Bool.noConfusion hsorted) ops

/-- Strings by their code units, with or without the case of the ASCII letters. -/
def plainComparisons : Comparisons where
  str := compareKeys (List.map UInt16.toNat)
  text := compareKeys fun str => str.map fun ch =>
    if 65 ≤ ch ∧ ch ≤ 90 then ch.toNat + 32 else ch.toNat
  isStr := .ofKey _
  isText := .ofKey _

theorem sorted_list_out_of_order :
    ¬ RunRight (α := Unit) plainComparisons {}
      [.add (wstr "b"), .setSorted true, .append (wstr "a")] ∧
    ¬ RunRight (α := Unit) plainComparisons {}
      [.add (wstr "a"), .add (wstr "B"), .setSorted true, .setCaseSensitive true] ∧
    ¬ RunRight (α := Unit) plainComparisons {} [.getString 0] := by
  refine ⟨?_, ?_, ?_⟩
  · rintro ⟨s₁, h₁, -, s₂, h₂, -, s₃, h₃, hright, -⟩
    cases h₁
    cases h₂
    cases h₃
    have := hright.ordered rfl
    revert this
    decide
  · rintro ⟨s₁, h₁, -, s₂, h₂, -, s₃, h₃, -, s₄, h₄, hright, -⟩
    cases h₁
    cases h₂
    cases h₃
    cases h₄
    have := hright.ordered rfl
    revert this
    decide
  · rintro ⟨s₁, h₁, hright, -⟩
    cases h₁
    exact absurd (congrArg TStringList.count hright.keeps) (by decide)

end TStringList

end NetBox.Base.Text
