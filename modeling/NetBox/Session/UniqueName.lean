import NetBox.Base.Sizes
import NetBox.Session.NamedObjects

/-! # Unique names

`TNamedObject::MakeUniqueIn` counts a number in parentheses at the end of the name up
until no object of the list has the name. `StrToInt64` raises nothing, so whatever stands
in the parentheses is cut off, and the blank in front of them is left: the name that the
trimming gives is overwritten.
-/
namespace NetBox.Session

open Base.Text List

def openParenthesis : WChar := 40
def closeParenthesis : WChar := 41

/-- The name with a number behind it. -/
def numbered (base number : UnicodeString) : UnicodeString :=
  base ++ wstr " (" ++ number ++ [closeParenthesis]

namespace TNamedObject

/-- One round of the loop. The last character of an empty name is an index error. -/
def nextName (name : UnicodeString) : Option UnicodeString :=
  match name.getLast? with
  | none => none
  | some last =>
    let p := lastDelimiter [openParenthesis] name
    if last = closeParenthesis ∧ p > 0 then
      let n := strToInt64 ((name.drop p).take (name.length - p - 1))
      some (numbered (name.take (p - 1)) (int64ToStr ((n + 1).bmod (2 ^ 64))))
    else some (numbered name (int64ToStr 1))

/-- The loop, as far as the fuel goes. `none` also for an object that cannot be read. -/
def makeUniqueIn (api : CompareApi) (c : Collation) (list : TNamedObjectList) :
    Nat → UnicodeString → Option UnicodeString
  | 0, _ => none
  | fuel + 1, name =>
    match list.findByName api c name with
    | none => none
    | some none => some name
    | some (some _) => (nextName name).bind (makeUniqueIn api c list fuel)

end TNamedObject

/-! ## What is expected of the name -/

/-- The name ends in a number in parentheses, behind a blank. -/
def HasNumber (name base digits : UnicodeString) : Prop :=
  name = numbered base digits ∧ digits ≠ [] ∧ ∀ ch ∈ digits, isDigit ch = true

/-- The name without its number, if it has one. -/
def IsBase (name base : UnicodeString) : Prop :=
  (∃ digits, HasNumber name base digits) ∨ (base = name ∧ ∀ b digits, ¬ HasNumber name b digits)

/-- The name is the base, or the base with a positive number. -/
def IsNumberedFrom (base name : UnicodeString) : Prop :=
  name = base ∨ ∃ digits, HasNumber name base digits ∧ 0 < digitsValue digits

/-- The loop ends with a name that is not in the list and is numbered from the base. -/
def MadeUnique (api : CompareApi) (c : Collation) (list : TNamedObjectList)
    (name : UnicodeString) : Prop :=
  ∃ fuel result base, TNamedObject.makeUniqueIn api c list fuel name = some result ∧
    list.findByName api c result = some none ∧ IsBase name base ∧ IsNumberedFrom base result

/-- Parentheses at the end of the name, whatever is in them. -/
def IsCut (name : UnicodeString) : Prop :=
  name.getLast? = some closeParenthesis ∧ openParenthesis ∈ name

/-! ## One round -/

theorem isCut_iff {name : UnicodeString} : IsCut name ↔
    ∃ front text, name = front ++ openParenthesis :: (text ++ [closeParenthesis]) ∧
      openParenthesis ∉ text := by
  constructor
  · intro ⟨hlast, hmem⟩
    obtain ⟨front, back, rfl, hback⟩ := exists_last hmem
    rcases eq_nil_or_concat' back with rfl | ⟨text, ch, rfl⟩
    · rw [getLast?_concat] at hlast
      cases hlast
    · rw [← cons_append, ← append_assoc, getLast?_concat] at hlast
      cases hlast
      exact ⟨front, text, rfl, fun h => hback (mem_append_left _ h)⟩
  · intro ⟨front, text, hname, _⟩
    subst hname
    rw [← cons_append, ← append_assoc]
    exact ⟨getLast?_concat, by simp⟩

theorem openParenthesis_not_digit {ch : WChar} (h : isDigit ch = true) : ch ≠ openParenthesis := by
  intro he
  subst he
  cases h

theorem openParenthesis_not_mem_int64ToStr (value : Int) :
    openParenthesis ∉ int64ToStr value := by
  have hdigits : openParenthesis ∉ intToStr value.natAbs := fun h =>
    openParenthesis_not_digit (isDigit_of_mem_intToStr h) rfl
  unfold int64ToStr
  split
  · intro hmem
    exact (mem_cons.mp hmem).elim (by decide) hdigits
  · exact hdigits

theorem numbered_eq (base number : UnicodeString) : numbered base number =
    (base ++ [32]) ++ openParenthesis :: (number ++ [closeParenthesis]) := by
  have htext : wstr " (" = [32, openParenthesis] := rfl
  rw [numbered, htext]
  simp

theorem HasNumber.isCut {name base digits : UnicodeString} (h : HasNumber name base digits) :
    IsCut name := by
  refine isCut_iff.mpr ⟨base ++ [32], digits, h.1.trans (numbered_eq base digits), fun hmem => ?_⟩
  exact openParenthesis_not_digit (h.2.2 _ hmem) rfl

namespace TNamedObject

theorem nextName_cut (front : UnicodeString) {text : UnicodeString} (h : openParenthesis ∉ text) :
    nextName (front ++ openParenthesis :: (text ++ [closeParenthesis])) =
      some (numbered front (int64ToStr ((strToInt64 text + 1).bmod (2 ^ 64)))) := by
  have hlast : (front ++ openParenthesis :: (text ++ [closeParenthesis])).getLast? =
      some closeParenthesis := by
    rw [← cons_append, ← append_assoc, getLast?_concat]
  have hp : lastDelimiter [openParenthesis] (front ++ openParenthesis :: (text ++ [closeParenthesis])) =
      front.length + 1 := by
    refine lastDelimiter_last front fun hmem => ?_
    rcases mem_append.mp hmem with hmem | hmem
    · exact h hmem
    · cases mem_singleton.mp hmem
  have hinner : ((front ++ openParenthesis :: (text ++ [closeParenthesis])).drop
      (front.length + 1)).take ((front ++ openParenthesis :: (text ++ [closeParenthesis])).length -
        (front.length + 1) - 1) = text := by
    have hsplit : front ++ openParenthesis :: (text ++ [closeParenthesis]) =
        (front ++ [openParenthesis]) ++ (text ++ [closeParenthesis]) := by simp
    have hlength : (front ++ openParenthesis :: (text ++ [closeParenthesis])).length -
        (front.length + 1) - 1 = text.length := by
      simp
      omega
    rw [hlength, hsplit, drop_left' (by simp), take_left]
  rw [nextName, hlast]
  dsimp only
  rw [hp, if_pos ⟨rfl, Nat.succ_pos _⟩, hinner, Nat.add_sub_cancel, take_left]

theorem nextName_of_not_isCut {name : UnicodeString} (hne : name ≠ []) (h : ¬ IsCut name) :
    nextName name = some (numbered name (int64ToStr 1)) := by
  obtain ⟨front, last, rfl⟩ := (eq_nil_or_concat' name).resolve_left hne
  rw [nextName, getLast?_concat]
  dsimp only
  refine if_neg fun hcut => h ⟨?_, ?_⟩
  · rw [getLast?_concat, hcut.1]
  · by_contra hmem
    rw [lastDelimiter_absent hmem] at hcut
    exact absurd hcut.2 (by omega)

/-- Once there is a blank behind the front, it stays. -/
theorem makeUniqueIn_keeps (api : CompareApi) (c : Collation) (list : TNamedObjectList)
    {fuel : Nat} {front more text result : UnicodeString} (htext : openParenthesis ∉ text)
    (h : makeUniqueIn api c list fuel
      ((front ++ 32 :: more) ++ openParenthesis :: (text ++ [closeParenthesis])) = some result) :
    ∃ rest, result = front ++ 32 :: rest := by
  induction fuel generalizing more text with
  | zero => cases h
  | succ fuel ih =>
    rw [makeUniqueIn] at h
    split at h
    · cases h
    · cases h
      exact ⟨_, append_assoc _ _ _⟩
    · rw [nextName_cut _ htext, Option.bind_some, numbered_eq, append_assoc front,
        cons_append] at h
      exact ih (openParenthesis_not_mem_int64ToStr _) h

end TNamedObject

/-! ## The result -/

/-- With two blanks behind the base the name has not the form. -/
theorem not_isNumberedFrom (base rest : UnicodeString) :
    ¬ IsNumberedFrom base (base ++ [32] ++ 32 :: rest) := by
  intro h
  rcases h with h | ⟨digits, h, -⟩
  · simp at h
  · have hname := h.1
    rw [numbered_eq, append_assoc, append_assoc, append_cancel_left_eq] at hname
    cases hname

/-- The last parenthesis is where it is. -/
theorem front_of_cut {front text base digits : UnicodeString} (htext : openParenthesis ∉ text)
    (h : HasNumber (front ++ openParenthesis :: (text ++ [closeParenthesis])) base digits) :
    front = base ++ [32] ∧ text = digits := by
  have hdigits : openParenthesis ∉ digits := fun hmem =>
    openParenthesis_not_digit (h.2.2 _ hmem) rfl
  have hclose : ∀ {str : UnicodeString}, openParenthesis ∉ str →
      openParenthesis ∉ str ++ [closeParenthesis] := by
    intro str hstr hmem
    rcases mem_append.mp hmem with hmem | hmem
    · exact hstr hmem
    · cases mem_singleton.mp hmem
  have hname := h.1
  rw [numbered_eq] at hname
  have hp := congrArg (lastDelimiter [openParenthesis]) hname
  rw [lastDelimiter_last _ (hclose htext), lastDelimiter_last _ (hclose hdigits)] at hp
  obtain ⟨hfront, hback⟩ := append_inj hname (Nat.succ_injective hp)
  exact ⟨hfront, append_cancel_right (tail_eq_of_cons_eq hback)⟩

theorem HasNumber.digits_eq {name base digits base' digits' : UnicodeString}
    (h : HasNumber name base digits) (h' : HasNumber name base' digits') : digits = digits' := by
  have hopen : openParenthesis ∉ digits := fun hmem =>
    openParenthesis_not_digit (h.2.2 _ hmem) rfl
  rw [h.1, numbered_eq] at h'
  exact (front_of_cut hopen h').2

section Unique

variable {api : CompareApi} {c : Collation} {list : TNamedObjectList} {name : UnicodeString}

/-- A name with parentheses at its end that is in the list is not made unique rightly. -/
theorem not_madeUnique_of_isCut (hcut : IsCut name) {x : UnicodeString}
    (hfind : list.findByName api c name = some (some x)) : ¬ MadeUnique api c list name := by
  intro ⟨fuel, result, base, hrun, _, hbase, hform⟩
  obtain ⟨front, text, rfl, htext⟩ := isCut_iff.mp hcut
  cases fuel with
  | zero => cases hrun
  | succ fuel =>
    rw [TNamedObject.makeUniqueIn, hfind] at hrun
    dsimp only at hrun
    rw [TNamedObject.nextName_cut front htext, Option.bind_some, numbered_eq] at hrun
    obtain ⟨rest, rfl⟩ := TNamedObject.makeUniqueIn_keeps api c list
      (openParenthesis_not_mem_int64ToStr _) hrun
    rcases hbase with ⟨digits, hnumber⟩ | ⟨rfl, -⟩
    · rw [(front_of_cut htext hnumber).1] at hform
      exact not_isNumberedFrom base rest hform
    · -- behind the front there is a blank now and was a parenthesis before
      have hstart : ∀ str, front ++ 32 :: rest ≠
          (front ++ openParenthesis :: (text ++ [closeParenthesis])) ++ str := by
        intro str heq
        rw [append_assoc, append_cancel_left_eq] at heq
        cases heq
      rcases hform with hsame | ⟨digits, hnumber, -⟩
      · exact hstart [] (hsame.trans (append_nil _).symm)
      · exact hstart _ (hnumber.1.trans (by rw [numbered, append_assoc, append_assoc]))

/-- A name without them gets the number 1, which is the only one it can get. -/
theorem madeUnique_iff_of_not_isCut (hcut : ¬ IsCut name) {x : UnicodeString}
    (hfind : list.findByName api c name = some (some x)) : MadeUnique api c list name ↔
      name ≠ [] ∧ list.findByName api c (numbered name (wstr "1")) = some none := by
  have hone : int64ToStr 1 = wstr "1" := rfl
  have hnot : ∀ b digits, ¬ HasNumber name b digits := fun b digits h => hcut h.isCut
  constructor
  · intro ⟨fuel, result, base, hrun, _, hbase, hform⟩
    obtain rfl : base = name := by
      rcases hbase with ⟨digits, hnumber⟩ | ⟨hsame, -⟩
      · exact absurd hnumber (hnot _ _)
      · exact hsame
    cases fuel with
    | zero => cases hrun
    | succ fuel =>
      rw [TNamedObject.makeUniqueIn, hfind] at hrun
      dsimp only at hrun
      by_cases hne : base = []
      · subst hne
        cases hrun
      · refine ⟨hne, ?_⟩
        rw [TNamedObject.nextName_of_not_isCut hne hcut, hone, Option.bind_some] at hrun
        cases fuel with
        | zero => cases hrun
        | succ fuel =>
          rw [TNamedObject.makeUniqueIn] at hrun
          split at hrun
          · cases hrun
          next hfree => exact hfree
          next hfree =>
            -- the second round leaves the blank of the first one
            have hopen : openParenthesis ∉ wstr "1" := by decide
            rw [numbered_eq, TNamedObject.nextName_cut _ hopen, Option.bind_some, numbered_eq] at hrun
            obtain ⟨rest, rfl⟩ := TNamedObject.makeUniqueIn_keeps api c list
              (openParenthesis_not_mem_int64ToStr _) hrun
            exact absurd hform (not_isNumberedFrom base rest)
  · intro ⟨hne, hfree⟩
    refine ⟨2, _, name, ?_, hfree, .inr ⟨rfl, hnot⟩, .inr ⟨wstr "1", ⟨rfl, ?_⟩, ?_⟩⟩
    · rw [TNamedObject.makeUniqueIn, hfind]
      dsimp only
      rw [TNamedObject.nextName_of_not_isCut hne hcut, hone, Option.bind_some,
        TNamedObject.makeUniqueIn, hfree]
    · exact ⟨by decide, forall_mem_of_all (by decide)⟩
    · decide

/-- A name that is not in the list is kept. -/
theorem madeUnique_iff_of_free (hfree : list.findByName api c name = some none) :
    MadeUnique api c list name ↔
      ∀ base digits, HasNumber name base digits → 0 < digitsValue digits := by
  constructor
  · intro ⟨fuel, result, base, hrun, _, hbase, hform⟩ b digits hnumber
    cases fuel with
    | zero => cases hrun
    | succ fuel =>
      rw [TNamedObject.makeUniqueIn, hfree] at hrun
      cases hrun
      rcases hform with hsame | ⟨digits', hnumber', hpositive⟩
      · rcases hbase with ⟨digits', hnumber'⟩ | ⟨-, hnone⟩
        · have hlength := congrArg List.length (hsame.symm.trans hnumber'.1)
          simp [numbered_eq] at hlength
        · exact absurd hnumber (hnone _ _)
      · rw [hnumber.digits_eq hnumber']
        exact hpositive
  · intro hpositive
    by_cases hnumber : ∃ base digits, HasNumber name base digits
    · obtain ⟨base, digits, hnumber⟩ := hnumber
      refine ⟨1, name, base, ?_, hfree, .inl ⟨digits, hnumber⟩, ?_⟩
      · rw [TNamedObject.makeUniqueIn, hfree]
      · exact .inr ⟨digits, hnumber, hpositive base digits hnumber⟩
    · refine ⟨1, name, name, ?_, hfree, .inr ⟨rfl, fun b digits h => hnumber ⟨b, digits, h⟩⟩, .inl rfl⟩
      rw [TNamedObject.makeUniqueIn, hfree]

end Unique

/-- A name is made unique rightly just when it is free and has no number but a positive
one, or is taken, does not end in parentheses and is free with the number 1. -/
theorem makeUniqueIn_iff (api : CompareApi) (c : Collation) (list : TNamedObjectList)
    (name : UnicodeString) : MadeUnique api c list name ↔
      (list.findByName api c name = some none ∧
        ∀ base digits, HasNumber name base digits → 0 < digitsValue digits) ∨
      ((∃ x, list.findByName api c name = some (some x)) ∧ name ≠ [] ∧ ¬ IsCut name ∧
        list.findByName api c (numbered name (wstr "1")) = some none) := by
  cases hfind : list.findByName api c name with
  | none =>
    refine iff_of_false ?_ (by simp)
    intro ⟨fuel, result, base, hrun, _⟩
    cases fuel with
    | zero => cases hrun
    | succ fuel =>
      rw [TNamedObject.makeUniqueIn, hfind] at hrun
      cases hrun
  | some found =>
    cases found with
    | none => rw [madeUnique_iff_of_free hfind]; simp
    | some x =>
      by_cases hcut : IsCut name
      · exact iff_of_false (not_madeUnique_of_isCut hcut hfind) (by simp [hcut])
      · rw [madeUnique_iff_of_not_isCut hcut hfind]
        simp [hcut]

/-- What is in the parentheses is lost, and a second blank comes in. -/
theorem makeUniqueIn_text_lost : ¬ MadeUnique ordinalApi TNamedObjectList.ignoringCase
    { items := [wstr "Foo (bar)"], autoSort := false } (wstr "Foo (bar)") ∧
    TNamedObject.makeUniqueIn ordinalApi TNamedObjectList.ignoringCase
      { items := [wstr "Foo (bar)"], autoSort := false } 2 (wstr "Foo (bar)") =
        some (wstr "Foo  (1)") := by
  have hfind : TNamedObjectList.findByName ordinalApi
      { items := [wstr "Foo (bar)"], autoSort := false } TNamedObjectList.ignoringCase
      (wstr "Foo (bar)") = some (some (wstr "Foo (bar)")) := by decide +kernel
  exact ⟨not_madeUnique_of_isCut ⟨by decide, by decide⟩ hfind, by decide +kernel⟩

end NetBox.Session
