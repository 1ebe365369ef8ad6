import NetBox.Base.Url
import Mathlib.Data.List.Infix

/-! # Matching a name against a mask

`CmpName` of Masks.cpp. Texts are NUL-terminated, so what is behind a U+0000 is not seen.
The mask is read from left to right; only for `*` the rest of the mask is tried at every
place of the rest of the name. The case of letters is ignored by taking both to upper
case, except for a class of a single character, which is compared as it is.
-/
namespace NetBox.Masks
open Base.Text List

def dot : WChar := 46
def star : WChar := 42
def question : WChar := 63
def openBracket : WChar := 91
def closeBracket : WChar := 93
def hyphen : WChar := 45

/-- The characters that mean something in a mask. -/
def specials : UnicodeString := [0, dot, star, question, openBracket, closeBracket, hyphen]

def isAsciiLetter (ch : WChar) : Bool := (65 ≤ ch && ch ≤ 90) || (97 ≤ ch && ch ≤ 122)


/-- What the operating system does: `CharUpperBuff` for one character, which leaves what is
not a letter as it is, and a comparison of texts without regard to case. -/
structure CaseApi where
  upper : WChar → WChar
  sameText : UnicodeString → UnicodeString → Bool
  upper_special : ∀ special ∈ specials, ∀ ch, upper ch = special ↔ ch = special
  upper_ascii : ∀ ch < 128, upper ch = asciiUpper ch
  sameText_ascii : ∀ a b, sameText (a.map asciiUpper) (b.map asciiUpper) = sameText a b

/-! ## Letters of the ASCII range -/

section
variable {ch special : WChar}

theorem asciiUpper_cases (ch : WChar) :
    (97 ≤ ch.toNat ∧ ch.toNat ≤ 122 ∧ (asciiUpper ch).toNat = ch.toNat - 32) ∨
      (¬ (97 ≤ ch.toNat ∧ ch.toNat ≤ 122) ∧ asciiUpper ch = ch) := by
  unfold asciiUpper
  simp only [UInt16.le_iff_toNat_le]
  split
  next h =>
    refine .inl ⟨h.1, h.2, UInt16.toNat_sub_of_le _ _ (UInt16.le_iff_toNat_le.mpr ?_)⟩
    exact Nat.le_trans (by decide) h.1
  next h => exact .inr ⟨h, rfl⟩

theorem isAsciiLetter_iff : isAsciiLetter ch = true ↔
    65 ≤ ch.toNat ∧ ch.toNat ≤ 90 ∨ 97 ≤ ch.toNat ∧ ch.toNat ≤ 122 := by
  simp [isAsciiLetter, UInt16.le_iff_toNat_le]

/-- What is not a letter is in upper case only what it is. -/
theorem asciiUpper_eq_iff (h : isAsciiLetter special = false) :
    asciiUpper ch = special ↔ ch = special := by
  have hspecial := mt isAsciiLetter_iff.mpr (Bool.eq_false_iff.mp h)
  rcases asciiUpper_cases ch with ⟨hlow, hhigh, heq⟩ | ⟨-, heq⟩
  · simp only [← UInt16.toNat_inj, heq]
    omega
  · rw [heq]

theorem asciiUpper_special (h : special ∈ specials) : asciiUpper ch = special ↔ ch = special := by
  have hall : (specials.all fun ch => !isAsciiLetter ch) = true := by decide
  exact asciiUpper_eq_iff (by simpa using all_eq_true.mp hall special h)

theorem asciiUpper_idem (ch : WChar) : asciiUpper (asciiUpper ch) = asciiUpper ch := by
  rcases asciiUpper_cases ch with ⟨hlow, hhigh, heq⟩ | ⟨-, heq⟩
  · rcases asciiUpper_cases (asciiUpper ch) with ⟨hlow', -⟩ | ⟨-, heq'⟩
    · omega
    · exact heq'
  · rw [heq, heq]

end

/-- A system that knows no letters but those of ASCII. -/
def asciiCase : CaseApi where
  upper := asciiUpper
  sameText a b := a.map asciiUpper == b.map asciiUpper
  upper_special _ h _ := asciiUpper_special h
  upper_ascii _ _ := rfl
  sameText_ascii a b := by simp only [map_map, Function.comp_def, asciiUpper_idem]

/-! ## The matcher -/

/-- What is behind the last dot of a name, if there is one. -/
def behindLastDot : UnicodeString → Option UnicodeString
  | [] => none
  | ch :: str =>
    match behindLastDot str with
    | some rest => some rest
    | none => if ch = dot then some str else none

/-- The loop over a class: whether the character is in it, and if so the mask behind it.
`prev` is what stands before the place in the mask. -/
def classLoop (a : CaseApi) (stringc : WChar) :
    WChar → Bool → UnicodeString → Option UnicodeString
  | _, _, [] => none
  | prev, isMatch, ch :: mask =>
    if a.upper ch = closeBracket then if isMatch then some mask else none
    else if isMatch then classLoop a stringc ch true mask
    else if a.upper ch = hyphen ∧ prev ≠ openBracket ∧ mask.head? ≠ some closeBracket then
      match mask with
      | [] => none
      | last :: mask =>
        classLoop a stringc last
          (decide (stringc ≤ a.upper last) && decide (a.upper prev ≤ stringc)) mask
    else classLoop a stringc ch (stringc == a.upper ch) mask

/-- The mask behind a class stands behind the bracket that closes it. -/
theorem classLoop_suffix {a : CaseApi} {stringc prev : WChar} {isMatch : Bool}
    {mask rest : UnicodeString} (h : classLoop a stringc prev isMatch mask = some rest) :
    ∃ ch, ch :: rest <:+ mask := by
  fun_induction classLoop a stringc prev isMatch mask
  case case1 => cases h
  case case2 ch mask _ =>
    cases h
    exact ⟨ch, suffix_rfl⟩
  case case3 => cases h
  case case4 ih =>
    obtain ⟨ch, hsuffix⟩ := ih h
    exact ⟨ch, hsuffix.trans (suffix_cons _ _)⟩
  case case5 => cases h
  case case6 ih =>
    obtain ⟨ch, hsuffix⟩ := ih h
    exact ⟨ch, hsuffix.trans ((suffix_cons _ _).trans (suffix_cons _ _))⟩
  case case7 ih =>
    obtain ⟨ch, hsuffix⟩ := ih h
    exact ⟨ch, hsuffix.trans (suffix_cons _ _)⟩

theorem classLoop_length {a : CaseApi} {stringc prev : WChar} {isMatch : Bool}
    {mask rest : UnicodeString} (h : classLoop a stringc prev isMatch mask = some rest) :
    rest.length < mask.length := by
  obtain ⟨ch, hsuffix⟩ := classLoop_suffix h
  exact hsuffix.length_le

/-- What is decided without the loop when a `*` stands before the rest of the mask: it is at
the end, or an extension without other wildcards follows. -/
def starShortcut (a : CaseApi) (mask str : UnicodeString) : Option Bool :=
  match mask with
  | [] => some true
  | ch :: ext =>
    if ch ≠ dot then none
    else if ext = [star] then some true
    else if mask.any fun ch => ch == star || ch == question || ch == openBracket then none
    else
      match ext, behindLastDot str with
      | [], rest => some (rest.getD []).isEmpty
      | _ :: _, none => if ext.contains dot then some false else none
      | _ :: _, some rest => if ext.contains dot then none else some (a.sameText ext rest)

/-- `CmpName_Body`, on texts without U+0000. `one` compares the character of a class with
only one, which in the source is an equality. -/
def cmpNameBody (a : CaseApi) (one : WChar → WChar → Bool) (searchMode : Bool)
    (mask str : UnicodeString) : Bool :=
  let stringc := a.upper (str.headD 0)
  match mask with
  | [] => stringc == 0
  | ch :: mask =>
    let patternc := a.upper ch
    if patternc = question then stringc != 0 && cmpNameBody a one searchMode mask str.tail
    else if patternc = star then
      match starShortcut a mask str with
      | some result => result
      | none => str.tails.any fun rest => cmpNameBody a one searchMode mask rest
    else if patternc = openBracket then
      if !mask.contains closeBracket then
        patternc == stringc && cmpNameBody a one searchMode mask str.tail
      else if mask.tail.head? = some closeBracket then
        one (mask.headD 0) (str.headD 0) && cmpNameBody a one searchMode (mask.drop 2) str.tail
      else
        match _h : classLoop a stringc openBracket false mask with
        | none => false
        | some mask => cmpNameBody a one searchMode mask str.tail
    else if patternc = stringc then cmpNameBody a one searchMode mask str.tail
    else
      patternc == dot && stringc == 0 && !searchMode && mask.head? != some dot &&
        cmpNameBody a one searchMode mask str
termination_by mask.length
decreasing_by
  all_goals simp only [length_cons, length_drop]
  all_goals first
    | omega
    | exact Nat.lt_succ_of_lt (classLoop_length _h)

def cmpName (a : CaseApi) (pattern str : UnicodeString) (searchMode : Bool) : Bool :=
  cmpNameBody a (· == ·) searchMode (uptoNul pattern) (uptoNul str)

/-- `TMask::Matches`. -/
def maskMatches (a : CaseApi) (mask str : UnicodeString) : Bool := cmpName a mask str false

/-! ## What a character of a mask does -/

section
variable {a : CaseApi} {one : WChar → WChar → Bool} {searchMode : Bool}
  {mask str : UnicodeString} {p : WChar}

/-- There are four kinds of characters. -/
theorem CaseApi.upper_kind (a : CaseApi) (p : WChar) : a.upper p = question ∨ a.upper p = star ∨
    a.upper p = openBracket ∨
      (a.upper p ≠ question ∧ a.upper p ≠ star ∧ a.upper p ≠ openBracket) := by
  by_cases hquestion : a.upper p = question
  · exact .inl hquestion
  · by_cases hstar : a.upper p = star
    · exact .inr (.inl hstar)
    · by_cases hbracket : a.upper p = openBracket
      · exact .inr (.inr (.inl hbracket))
      · exact .inr (.inr (.inr ⟨hquestion, hstar, hbracket⟩))

theorem cmpNameBody_question_eq (h : a.upper p = question) :
    cmpNameBody a one searchMode (p :: mask) str =
      (a.upper (str.headD 0) != 0 && cmpNameBody a one searchMode mask str.tail) := by
  rw [cmpNameBody, if_pos h]

theorem cmpNameBody_star_eq (h : a.upper p = star) :
    cmpNameBody a one searchMode (p :: mask) str = (starShortcut a mask str).getD
      (str.tails.any fun rest => cmpNameBody a one searchMode mask rest) := by
  rw [cmpNameBody, h, if_neg (by decide), if_pos rfl]
  cases starShortcut a mask str <;> rfl

theorem cmpNameBody_bracket_eq (h : a.upper p = openBracket) :
    cmpNameBody a one searchMode (p :: mask) str =
      if !mask.contains closeBracket then
        a.upper p == a.upper (str.headD 0) && cmpNameBody a one searchMode mask str.tail
      else if mask.tail.head? = some closeBracket then
        one (mask.headD 0) (str.headD 0) && cmpNameBody a one searchMode (mask.drop 2) str.tail
      else (classLoop a (a.upper (str.headD 0)) openBracket false mask).any fun mask =>
        cmpNameBody a one searchMode mask str.tail := by
  rw [cmpNameBody, if_neg (by rw [h]; decide), if_neg (by rw [h]; decide), if_pos h]
  split
  · rfl
  · split
    · rfl
    · split
      next hnone => rw [hnone, Option.any_none]
      next hsome => rw [hsome, Option.any_some]

theorem cmpNameBody_other_eq
    (h : a.upper p ≠ question ∧ a.upper p ≠ star ∧ a.upper p ≠ openBracket) :
    cmpNameBody a one searchMode (p :: mask) str =
      if a.upper p = a.upper (str.headD 0) then cmpNameBody a one searchMode mask str.tail
      else a.upper p == dot && a.upper (str.headD 0) == 0 && !searchMode &&
        mask.head? != some dot && cmpNameBody a one searchMode mask str := by
  rw [cmpNameBody, if_neg h.1, if_neg h.2.1, if_neg h.2.2]

end

/-! ## The language of a mask -/

/-- The names of a mask of literals, `?` and `*`. -/
inductive Matches (upper : WChar → WChar) : UnicodeString → UnicodeString → Prop
  | nil : Matches upper [] []
  | one {mask str : UnicodeString} (ch : WChar) : Matches upper mask str →
      Matches upper (question :: mask) (ch :: str)
  | any {mask str : UnicodeString} (front : UnicodeString) : Matches upper mask str →
      Matches upper (star :: mask) (front ++ str)
  | literal {mask str : UnicodeString} {p ch : WChar} : p ≠ question → p ≠ star →
      upper p = upper ch → Matches upper mask str → Matches upper (p :: mask) (ch :: str)

variable {a : CaseApi} {one : WChar → WChar → Bool} {searchMode : Bool}
  {mask str : UnicodeString} {ch p : WChar}

namespace Matches
variable {upper : WChar → WChar}

theorem nil_iff : Matches upper [] str ↔ str = [] :=
  ⟨fun h => by cases h; rfl, fun h => by rw [h]; exact .nil⟩

theorem question_iff :
    Matches upper (question :: mask) str ↔ ∃ ch rest, str = ch :: rest ∧ Matches upper mask rest := by
  constructor
  · intro h
    cases h with
    | one ch h => exact ⟨ch, _, rfl, h⟩
    | literal hne => exact absurd rfl hne
  · rintro ⟨ch, rest, rfl, h⟩
    exact .one ch h

theorem star_iff :
    Matches upper (star :: mask) str ↔ ∃ rest ∈ str.tails, Matches upper mask rest := by
  constructor
  · intro h
    generalize hmask : star :: mask = whole at h
    cases h with
    | nil => cases hmask
    | one ch h => exact absurd (List.cons.inj hmask).1 (by decide)
    | any front h =>
      cases hmask
      exact ⟨_, (mem_tails _ _).mpr (suffix_append _ _), h⟩
    | literal _ hne => exact absurd (List.cons.inj hmask).1.symm hne
  · rintro ⟨rest, hmem, h⟩
    obtain ⟨front, rfl⟩ := (mem_tails _ _).mp hmem
    exact .any front h

theorem literal_iff (hquestion : p ≠ question) (hstar : p ≠ star) :
    Matches upper (p :: mask) str ↔
      ∃ ch rest, str = ch :: rest ∧ upper p = upper ch ∧ Matches upper mask rest := by
  constructor
  · intro h
    cases h with
    | one => exact absurd rfl hquestion
    | any => exact absurd rfl hstar
    | @literal _ rest _ ch _ _ heq h => exact ⟨ch, rest, rfl, heq, h⟩
  · rintro ⟨ch, rest, rfl, heq, h⟩
    exact .literal hquestion hstar heq h

end Matches

namespace CaseApi

theorem upper_eq_iff (a : CaseApi) {special : WChar} (h : special ∈ specials) :
    a.upper ch = special ↔ ch = special := a.upper_special special h ch

theorem upper_self (a : CaseApi) (h : ch ∈ specials) : a.upper ch = ch := (a.upper_eq_iff h).mpr rfl

theorem upper_eq_zero (a : CaseApi) : a.upper ch = 0 ↔ ch = 0 := a.upper_eq_iff (by decide)

theorem upper_zero (a : CaseApi) : a.upper 0 = 0 := a.upper_eq_zero.mpr rfl

end CaseApi

/-- Without a dot, only a `*` at the end is decided at once. -/
theorem starShortcut_of_no_dot (h : dot ∉ mask) :
    starShortcut a mask str = if mask = [] then some true else none := by
  cases mask with
  | nil => rfl
  | cons ch ext =>
    have hch : ch ≠ dot := fun he => h (he ▸ mem_cons_self)
    rw [starShortcut.eq_def]
    exact (if_pos hch).trans (if_neg (by simp)).symm

/-- At the end of the name there is a U+0000, and nowhere else. -/
theorem upper_headD_eq_zero (hstr : 0 ∉ str) : a.upper (str.headD 0) = 0 ↔ str = [] := by
  rw [a.upper_eq_zero]
  cases str with
  | nil => simp
  | cons ch str =>
    simp only [headD_cons, reduceCtorEq, iff_false]
    exact fun he => hstr (he ▸ mem_cons_self)

theorem cmpNameBody_question (hstr : 0 ∉ str) :
    cmpNameBody a one searchMode (question :: mask) str = true ↔
      ∃ ch rest, str = ch :: rest ∧ cmpNameBody a one searchMode mask rest = true := by
  have hquestion : a.upper question = question := a.upper_self (by decide)
  rw [cmpNameBody_question_eq hquestion, Bool.and_eq_true, bne_iff_ne, ne_eq, upper_headD_eq_zero hstr]
  cases str <;> simp

theorem cmpNameBody_star (hmask : dot ∉ mask) :
    cmpNameBody a one searchMode (star :: mask) str = true ↔
      mask = [] ∨ ∃ rest ∈ str.tails, cmpNameBody a one searchMode mask rest = true := by
  have hstar : a.upper star = star := a.upper_self (by decide)
  rw [cmpNameBody_star_eq hstar, starShortcut_of_no_dot hmask]
  by_cases hnil : mask = []
  · simp [hnil]
  · rw [if_neg hnil]
    simp [hnil]

theorem cmpNameBody_literal (hp : p ∉ [0, dot, star, question, openBracket]) :
    cmpNameBody a one searchMode (p :: mask) str = true ↔
      ∃ ch rest, str = ch :: rest ∧ a.upper p = a.upper ch ∧
        cmpNameBody a one searchMode mask rest = true := by
  have hupper : ∀ special ∈ [0, dot, star, question, openBracket], a.upper p ≠ special := by
    intro special h he
    have hspecial : ∀ special ∈ [0, dot, star, question, openBracket], special ∈ specials :=
      forall_mem_of_all (by decide)
    exact hp ((a.upper_eq_iff (hspecial special h)).mp he ▸ h)
  rw [cmpNameBody_other_eq
    ⟨hupper _ (by decide), hupper _ (by decide), hupper _ (by decide)⟩]
  cases str with
  | nil =>
    have hdot : (a.upper p == dot) = false := beq_false_of_ne (hupper _ (by decide))
    rw [headD_nil, a.upper_zero, if_neg (hupper 0 (by decide)), hdot]
    simp
  | cons ch rest =>
    have hdot : (a.upper p == dot) = false := beq_false_of_ne (hupper _ (by decide))
    rw [headD_cons, tail_cons]
    split
    next heq => simp [heq]
    next hne => simp [hne, hdot]

theorem cmpNameBody_matches
    (hmask : ∀ ch ∈ mask, ch ≠ dot ∧ ch ≠ openBracket) (hzero : 0 ∉ mask) (hstr : 0 ∉ str) :
    cmpNameBody a one searchMode mask str = true ↔ Matches a.upper mask str := by
  induction mask generalizing str with
  | nil => rw [cmpNameBody, beq_iff_eq, upper_headD_eq_zero hstr, Matches.nil_iff]
  | cons p mask ih =>
    have hp := hmask p mem_cons_self
    have hdot : dot ∉ mask := fun h => (hmask dot (mem_cons_of_mem _ h)).1 rfl
    have hrest : ∀ {rest : UnicodeString}, rest <:+ str →
        (cmpNameBody a one searchMode mask rest = true ↔ Matches a.upper mask rest) :=
      fun hsuffix => ih (fun ch hch => hmask ch (mem_cons_of_mem _ hch))
        (fun h => hzero (mem_cons_of_mem _ h)) (fun h => hstr (hsuffix.subset h))
    by_cases hquestion : p = question
    · subst hquestion
      rw [cmpNameBody_question hstr, Matches.question_iff]
      constructor
      · rintro ⟨ch, rest, rfl, h⟩
        exact ⟨ch, rest, rfl, (hrest (suffix_cons _ _)).mp h⟩
      · rintro ⟨ch, rest, rfl, h⟩
        exact ⟨ch, rest, rfl, (hrest (suffix_cons _ _)).mpr h⟩
    · by_cases hstar : p = star
      · subst hstar
        rw [cmpNameBody_star hdot, Matches.star_iff]
        constructor
        · rintro (rfl | ⟨rest, hmem, h⟩)
          · exact ⟨[], (mem_tails _ _).mpr nil_suffix, .nil⟩
          · exact ⟨rest, hmem, (hrest ((mem_tails _ _).mp hmem)).mp h⟩
        · rintro ⟨rest, hmem, h⟩
          exact .inr ⟨rest, hmem, (hrest ((mem_tails _ _).mp hmem)).mpr h⟩
      · have hne : p ≠ 0 := fun he => hzero (he ▸ mem_cons_self)
        rw [cmpNameBody_literal (by simp [hne, hp.1, hp.2, hquestion, hstar]),
          Matches.literal_iff hquestion hstar]
        constructor
        · rintro ⟨ch, rest, rfl, heq, h⟩
          exact ⟨ch, rest, rfl, heq, (hrest (suffix_cons _ _)).mp h⟩
        · rintro ⟨ch, rest, rfl, heq, h⟩
          exact ⟨ch, rest, rfl, heq, (hrest (suffix_cons _ _)).mpr h⟩

/-- A mask of literals, `?` and `*` matches the names of its language. -/
theorem cmpName_matches_iff (a : CaseApi) (pattern str : UnicodeString) (searchMode : Bool)
    (hpattern : ∀ ch ∈ pattern, ch ≠ dot ∧ ch ≠ openBracket) :
    cmpName a pattern str searchMode = true ↔
      Matches a.upper (uptoNul pattern) (uptoNul str) := by
  refine cmpNameBody_matches (fun ch hch => hpattern ch ?_) (zero_not_mem_uptoNul _)
    (zero_not_mem_uptoNul _)
  exact (List.takeWhile_prefix _).subset hch

theorem cmpName_matches_sample : cmpName asciiCase (wstr "a?*-") (wstr "Abc-") false = true ↔
    Matches asciiUpper (uptoNul (wstr "a?*-")) (uptoNul (wstr "Abc-")) :=
  cmpName_matches_iff asciiCase (wstr "a?*-") (wstr "Abc-") false
    (forall_mem_of_all (by decide))

end NetBox.Masks
