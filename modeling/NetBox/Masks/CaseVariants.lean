import NetBox.Masks.CmpName

/-! # Masks and names in another case

Whether a name matches should not depend on the case of its letters or of those of the
mask. It does for a class of one letter, such as `[a]`. The matcher is run with two
other comparisons for such classes, one that ignores the case and one that no letter
passes. What it finds as it is lies between the two, and both are what it finds for
some texts that differ in nothing but case.
-/
namespace NetBox.Masks
open Base.Text List

/-- The letters of the two texts are the same but for the case of ASCII letters. -/
def SameLetters (a b : UnicodeString) : Prop := a.map asciiUpper = b.map asciiUpper

/-- A class of one letter matches that letter in either case. -/
def anyCase (p ch : WChar) : Bool := asciiUpper p == asciiUpper ch

/-- A class of one letter matches nothing. -/
def noLetter (p ch : WChar) : Bool := p == ch && !isAsciiLetter p

/-- Classes of one letter do not matter: the name matches with those in either case just
when it matches without them. -/
def Indifferent (a : CaseApi) (pattern str : UnicodeString) (searchMode : Bool) : Prop :=
  cmpNameBody a anyCase searchMode (uptoNul pattern) (uptoNul str) =
    cmpNameBody a noLetter searchMode (uptoNul pattern) (uptoNul str)

variable {a : CaseApi} {one one' : WChar → WChar → Bool} {searchMode : Bool}
  {mask str : UnicodeString} {stringc prev : WChar} {isMatch : Bool}

/-! ## Letters in upper case -/

theorem CaseApi.upper_asciiUpper (a : CaseApi) (ch : WChar) : a.upper (asciiUpper ch) = a.upper ch := by
  rcases asciiUpper_cases ch with ⟨hlow, hhigh, heq⟩ | ⟨-, heq⟩
  · rw [a.upper_ascii (asciiUpper ch) (UInt16.lt_iff_toNat_lt.mpr (show _ < 128 by omega)),
      a.upper_ascii ch (UInt16.lt_iff_toNat_lt.mpr (show _ < 128 by omega)), asciiUpper_idem]
  · rw [heq]

theorem headD_map (str : UnicodeString) :
    (str.map asciiUpper).headD 0 = asciiUpper (str.headD 0) := by
  cases str <;> rfl

theorem head?_map_special {special : WChar} (h : special ∈ specials) (str : UnicodeString) :
    (str.map asciiUpper).head? = some special ↔ str.head? = some special := by
  cases str with
  | nil => rfl
  | cons ch str => simp [asciiUpper_special h]

theorem contains_map_special {special : WChar} (h : special ∈ specials) (str : UnicodeString) :
    (str.map asciiUpper).contains special = str.contains special := by
  rw [Bool.eq_iff_iff]
  simp [asciiUpper_special h]

theorem beq_map_special {special ch : WChar} (h : special ∈ specials) :
    (asciiUpper ch == special) = (ch == special) := by
  rw [Bool.eq_iff_iff, beq_iff_eq, beq_iff_eq, asciiUpper_special h]

theorem behindLastDot_map (str : UnicodeString) :
    behindLastDot (str.map asciiUpper) = (behindLastDot str).map (List.map asciiUpper) := by
  induction str with
  | nil => rfl
  | cons ch str ih =>
    have hdot : asciiUpper ch = dot ↔ ch = dot := asciiUpper_special (by decide)
    rw [map_cons, behindLastDot, behindLastDot, ih]
    cases behindLastDot str with
    | some rest => rfl
    | none =>
      simp only [Option.map_none, hdot]
      split <;> rfl

/-! ## The loop over a class -/

section
variable {ch last : WChar}

theorem classLoop_close (h : a.upper ch = closeBracket) :
    classLoop a stringc prev isMatch (ch :: mask) = if isMatch then some mask else none := by
  rw [classLoop.eq_def]
  exact if_pos h

theorem classLoop_matched (h : a.upper ch ≠ closeBracket) :
    classLoop a stringc prev true (ch :: mask) = classLoop a stringc ch true mask := by
  rw [classLoop.eq_def]
  exact if_neg h

theorem classLoop_range (hclose : a.upper ch ≠ closeBracket) (h : a.upper ch = hyphen)
    (hprev : prev ≠ openBracket) (hlast : last ≠ closeBracket) :
    classLoop a stringc prev false (ch :: last :: mask) = classLoop a stringc last
      (decide (stringc ≤ a.upper last) && decide (a.upper prev ≤ stringc)) mask := by
  rw [classLoop.eq_def]
  have hrange : a.upper ch = hyphen ∧ prev ≠ openBracket ∧
      (last :: mask).head? ≠ some closeBracket := ⟨h, hprev, by simpa using hlast⟩
  exact (if_neg hclose).trans (if_pos hrange)

theorem classLoop_singleton (hclose : a.upper ch ≠ closeBracket) :
    classLoop a stringc prev isMatch [ch] = none := by
  simp [classLoop, hclose]

theorem classLoop_one (hclose : a.upper ch ≠ closeBracket)
    (h : ¬ (a.upper ch = hyphen ∧ prev ≠ openBracket ∧ mask.head? ≠ some closeBracket)) :
    classLoop a stringc prev false (ch :: mask) =
      classLoop a stringc ch (stringc == a.upper ch) mask := by
  rw [classLoop.eq_def]
  exact (if_neg hclose).trans (if_neg h)

end

theorem classLoop_map (a : CaseApi) (stringc prev : WChar) (isMatch : Bool)
    (mask : UnicodeString) :
    classLoop a stringc (asciiUpper prev) isMatch (mask.map asciiUpper) =
      (classLoop a stringc prev isMatch mask).map (List.map asciiUpper) := by
  have hupper := a.upper_asciiUpper
  fun_induction classLoop a stringc prev isMatch mask
  case case1 => rfl
  case case2 prev ch mask hclose =>
    rw [map_cons, classLoop_close ((hupper ch).trans hclose)]
    rfl
  case case3 prev isMatch ch mask hclose hno =>
    rw [map_cons, classLoop_close ((hupper ch).trans hclose), if_neg hno]
    rfl
  case case4 prev ch mask hclose ih =>
    rw [map_cons, classLoop_matched (by rwa [hupper]), ih]
  case case5 prev isMatch ch hclose hno hrange =>
    rw [map_singleton, classLoop_singleton (by rwa [hupper])]
    rfl
  case case6 prev isMatch ch hclose hno last mask hrange ih =>
    rw [Bool.not_eq_true] at hno
    subst hno
    have hprev : asciiUpper prev ≠ openBracket := mt (asciiUpper_special (by decide)).mp hrange.2.1
    have hlast : asciiUpper last ≠ closeBracket :=
      mt (asciiUpper_special (by decide)).mp (by simpa using hrange.2.2)
    rw [map_cons, map_cons, classLoop_range (by rwa [hupper])
      ((hupper ch).trans hrange.1) hprev hlast, hupper, hupper, ih]
  case case7 prev isMatch ch mask hclose hno hrange ih =>
    rw [Bool.not_eq_true] at hno
    subst hno
    rw [map_cons, classLoop_one (by rwa [hupper]), hupper, ih]
    rwa [hupper, ne_eq, ne_eq, asciiUpper_special (by decide), head?_map_special (by decide)]

/-! ## Upper case changes nothing -/

theorem starShortcut_map (a : CaseApi) (mask str : UnicodeString) :
    starShortcut a (mask.map asciiUpper) (str.map asciiUpper) = starShortcut a mask str := by
  cases mask with
  | nil => rfl
  | cons ch ext =>
    have hdot : asciiUpper ch = dot ↔ ch = dot := asciiUpper_special (by decide)
    have hstar : ext.map asciiUpper = [star] ↔ ext = [star] := by
      rw [map_eq_singleton_iff]
      constructor
      · rintro ⟨c, rfl, hc⟩
        rw [(asciiUpper_special (by decide)).mp hc]
      · rintro rfl
        exact ⟨star, rfl, by decide⟩
    have hany : (asciiUpper ch :: ext.map asciiUpper).any
        (fun ch => ch == star || ch == question || ch == openBracket) =
        (ch :: ext).any fun ch => ch == star || ch == question || ch == openBracket := by
      rw [← map_cons, any_map]
      refine congrArg (fun q => (ch :: ext).any q) (funext fun c => ?_)
      simp only [Function.comp_apply, beq_map_special (show star ∈ specials by decide),
        beq_map_special (show question ∈ specials by decide),
        beq_map_special (show openBracket ∈ specials by decide)]
    have hcontains : ∀ text : UnicodeString,
        (text.map asciiUpper).contains dot = text.contains dot :=
      contains_map_special (by decide)
    simp only [starShortcut, map_cons, ne_eq, hdot, hstar, hany, behindLastDot_map]
    cases ext with
    | nil => cases behindLastDot str <;> simp
    | cons c ext =>
      have hext := hcontains (c :: ext)
      cases behindLastDot str with
      | none =>
        simp only [Option.map_none, map_cons] at hext ⊢
        rw [hext]
      | some rest =>
        have hsame := a.sameText_ascii (c :: ext) rest
        simp only [Option.map_some, map_cons] at hext hsame ⊢
        rw [hext, hsame]

/-- The comparison of a class of one character does not see the case, either. -/
theorem cmpNameBody_map (hone : ∀ p ch, one (asciiUpper p) (asciiUpper ch) = one p ch)
    (mask str : UnicodeString) :
    cmpNameBody a one searchMode (mask.map asciiUpper) (str.map asciiUpper) =
      cmpNameBody a one searchMode mask str := by
  have hupper := a.upper_asciiUpper
  induction hn : mask.length using Nat.strong_induction_on generalizing mask str with
  | _ n ih =>
    cases mask with
    | nil => rw [map_nil, cmpNameBody, cmpNameBody, headD_map, hupper]
    | cons p mask =>
      have hrest : ∀ (mask' : UnicodeString), mask' <:+ mask → ∀ str : UnicodeString,
          cmpNameBody a one searchMode (mask'.map asciiUpper) (str.map asciiUpper) =
            cmpNameBody a one searchMode mask' str := fun mask' hsuffix str =>
        ih mask'.length (by rw [← hn]; exact Nat.lt_succ_of_le hsuffix.length_le) mask' str rfl
      have hsame := hrest mask suffix_rfl
      rw [map_cons]
      rcases a.upper_kind p with hp | hp | hp | hp
      · rw [cmpNameBody_question_eq ((hupper p).trans hp), cmpNameBody_question_eq hp, headD_map,
          hupper, ← map_tail, hsame]
      · rw [cmpNameBody_star_eq ((hupper p).trans hp), cmpNameBody_star_eq hp, starShortcut_map,
          map_tails, any_map]
        simp only [Function.comp_def, hsame]
      · have hclose : (mask.map asciiUpper).tail.head? = some closeBracket ↔
            mask.tail.head? = some closeBracket := by
          rw [← map_tail]
          exact head?_map_special (by decide) _
        have hclass : ∀ c, classLoop a c openBracket false (mask.map asciiUpper) =
            (classLoop a c openBracket false mask).map (List.map asciiUpper) := fun c =>
          classLoop_map a c openBracket false mask
        have hbehind : ∀ c, (classLoop a c openBracket false mask).any
              (fun mask => cmpNameBody a one searchMode (mask.map asciiUpper)
                (str.tail.map asciiUpper)) =
            (classLoop a c openBracket false mask).any
              fun mask => cmpNameBody a one searchMode mask str.tail := fun c => by
          cases hc : classLoop a c openBracket false mask with
          | none => rfl
          | some mask' =>
            obtain ⟨_, hsuffix⟩ := classLoop_suffix hc
            exact hrest mask' ((suffix_cons _ _).trans hsuffix) _
        rw [cmpNameBody_bracket_eq ((hupper p).trans hp), cmpNameBody_bracket_eq hp, headD_map,
          headD_map, hupper, hupper, contains_map_special (by decide), ← map_tail,
          ← map_drop, hone, hsame, hrest (mask.drop 2) (drop_suffix _ _)]
        simp only [hclose, hclass, Option.any_map, hbehind]
      · have hdot : ((mask.map asciiUpper).head? != some dot) = (mask.head? != some dot) := by
          rw [Bool.eq_iff_iff, bne_iff_ne, bne_iff_ne, ne_eq, ne_eq, head?_map_special (by decide)]
        rw [cmpNameBody_other_eq (by rwa [hupper]), cmpNameBody_other_eq hp, headD_map, hupper,
          hupper, ← map_tail, hsame, hsame, hdot]

/-! ## Another comparison for classes of one character -/

/-- What matches still does with a comparison that more characters pass. Only the classes of
the mask and the characters of the name matter. -/
theorem cmpNameBody_mono (hone : ∀ p, [openBracket, p, closeBracket] <:+: mask →
      ∀ ch ∈ 0 :: str, one p ch = true → one' p ch = true)
    (h : cmpNameBody a one searchMode mask str = true) :
    cmpNameBody a one' searchMode mask str = true := by
  induction hn : mask.length using Nat.strong_induction_on generalizing mask str with
  | _ n ih =>
    cases mask with
    | nil => rwa [cmpNameBody] at h ⊢
    | cons p mask =>
      have hrest : ∀ {mask' str' : UnicodeString}, mask' <:+ mask → str' <:+ str →
          cmpNameBody a one searchMode mask' str' = true →
            cmpNameBody a one' searchMode mask' str' = true := by
        intro mask' str' hmask hstr h
        refine ih mask'.length (by rw [← hn]; exact Nat.lt_succ_of_le hmask.length_le)
          (fun p hp ch hch => hone p ?_ ch ?_) h rfl
        · exact hp.trans (hmask.trans (suffix_cons _ _)).isInfix
        · exact mem_cons.mpr ((mem_cons.mp hch).imp_right fun hch => hstr.subset hch)
      have htail : str.tail <:+ str := tail_suffix _
      rcases a.upper_kind p with hp | hp | hp | hp
      · rw [cmpNameBody_question_eq hp, Bool.and_eq_true] at h ⊢
        exact h.imp_right (hrest suffix_rfl htail)
      · rw [cmpNameBody_star_eq hp] at h ⊢
        cases hshort : starShortcut a mask str with
        | some result => rwa [hshort] at h
        | none =>
          rw [hshort, Option.getD_none, any_eq_true] at h
          obtain ⟨rest, hmem, hmatch⟩ := h
          rw [Option.getD_none, any_eq_true]
          exact ⟨rest, hmem, hrest suffix_rfl ((mem_tails _ _).mp hmem) hmatch⟩
      · have hbracket : p = openBracket := (a.upper_eq_iff (by decide)).mp hp
        rw [cmpNameBody_bracket_eq hp] at h ⊢
        split at h
        next hopen =>
          rw [if_pos hopen]
          rw [Bool.and_eq_true] at h ⊢
          exact h.imp_right (hrest suffix_rfl htail)
        next hopen =>
          rw [if_neg hopen]
          split at h
          next hclose =>
            rw [if_pos hclose]
            obtain ⟨x, mask', rfl⟩ : ∃ x mask', mask = x :: closeBracket :: mask' := by
              rcases mask with _ | ⟨x, _ | ⟨y, mask'⟩⟩
              · cases hclose
              · cases hclose
              · exact ⟨x, mask', by simpa using hclose⟩
            rw [Bool.and_eq_true] at h ⊢
            refine h.imp (hone x ?_ _ ?_) (hrest (drop_suffix _ _) htail)
            · rw [hbracket]
              exact (prefix_append [openBracket, x, closeBracket] mask').isInfix
            · cases str <;> simp
          next hclose =>
            rw [if_neg hclose]
            cases hclass : classLoop a (a.upper (str.headD 0)) openBracket false mask with
            | none =>
              rw [hclass] at h
              cases h
            | some mask' =>
              rw [hclass] at h
              obtain ⟨_, hsuffix⟩ := classLoop_suffix hclass
              exact hrest ((suffix_cons _ _).trans hsuffix) htail h
      · rw [cmpNameBody_other_eq hp] at h ⊢
        split at h
        next heq =>
          rw [if_pos heq]
          exact hrest suffix_rfl htail h
        next hne =>
          rw [if_neg hne]
          rw [Bool.and_eq_true] at h ⊢
          exact h.imp_right (hrest suffix_rfl suffix_rfl)

/-- Comparisons that agree on the mask and the name give the same. -/
theorem cmpNameBody_congr
    (hone : ∀ p ∈ mask, ∀ ch ∈ 0 :: str, one p ch = one' p ch) :
    cmpNameBody a one searchMode mask str = cmpNameBody a one' searchMode mask str := by
  have hmem : ∀ p, [openBracket, p, closeBracket] <:+: mask → p ∈ mask := fun p h =>
    h.subset (by simp)
  rw [Bool.eq_iff_iff]
  exact ⟨cmpNameBody_mono fun p hp ch hch h => (hone p (hmem p hp) ch hch) ▸ h,
    cmpNameBody_mono fun p hp ch hch h => (hone p (hmem p hp) ch hch).symm ▸ h⟩

/-! ## Texts in one case -/

theorem asciiLower_cases (ch : WChar) :
    (65 ≤ ch.toNat ∧ ch.toNat ≤ 90 ∧ (asciiLower ch).toNat = ch.toNat + 32) ∨
      (¬ (65 ≤ ch.toNat ∧ ch.toNat ≤ 90) ∧ asciiLower ch = ch) := by
  unfold asciiLower
  simp only [UInt16.le_iff_toNat_le]
  split
  next h =>
    refine .inl ⟨h.1, h.2, ?_⟩
    rw [UInt16.toNat_add]
    exact Nat.mod_eq_of_lt (by have := h.2; simp at this ⊢; omega)
  next h => exact .inr ⟨h, rfl⟩

theorem asciiUpper_asciiLower (ch : WChar) : asciiUpper (asciiLower ch) = asciiUpper ch := by
  rcases asciiLower_cases ch with ⟨hlow, hhigh, heq⟩ | ⟨-, heq⟩
  · rcases asciiUpper_cases (asciiLower ch) with ⟨-, -, hupper⟩ | ⟨hno, -⟩
    · rcases asciiUpper_cases ch with ⟨hlow', -⟩ | ⟨-, hsame⟩
      · omega
      · rw [hsame, ← UInt16.toNat_inj]
        omega
    · omega
  · rw [heq]

theorem isAsciiLetter_asciiUpper (ch : WChar) :
    isAsciiLetter (asciiUpper ch) = isAsciiLetter ch := by
  rw [Bool.eq_iff_iff, isAsciiLetter_iff, isAsciiLetter_iff]
  rcases asciiUpper_cases ch with ⟨hlow, hhigh, heq⟩ | ⟨-, heq⟩
  · omega
  · rw [heq]

/-- No letter is in upper and in lower case. -/
theorem asciiLower_ne_asciiUpper {p ch : WChar} (h : isAsciiLetter p = true) :
    asciiLower p ≠ asciiUpper ch := by
  rw [isAsciiLetter_iff] at h
  rw [ne_eq, ← UInt16.toNat_inj]
  rcases asciiLower_cases p with ⟨hlow, hhigh, heq⟩ | ⟨hno, heq⟩ <;>
    rcases asciiUpper_cases ch with ⟨hlow', hhigh', heq'⟩ | ⟨hno', heq'⟩ <;>
    rw [heq, heq'] <;> omega

theorem anyCase_map (p ch : WChar) : anyCase (asciiUpper p) (asciiUpper ch) = anyCase p ch := by
  simp only [anyCase, asciiUpper_idem]

theorem noLetter_map (p ch : WChar) : noLetter (asciiUpper p) (asciiUpper ch) = noLetter p ch := by
  simp only [noLetter, isAsciiLetter_asciiUpper]
  cases hletter : isAsciiLetter p with
  | true => simp
  | false =>
    have hp : asciiUpper p = p := (asciiUpper_eq_iff hletter).mpr rfl
    rw [hp, Bool.eq_iff_iff]
    simp only [Bool.not_false, Bool.and_true, beq_iff_eq]
    rw [eq_comm, asciiUpper_eq_iff hletter, eq_comm]

/-- A text in upper case is compared as by a comparison that ignores case. -/
theorem cmpNameBody_upper (a : CaseApi) (searchMode : Bool) (mask str : UnicodeString) :
    cmpNameBody a (· == ·) searchMode (mask.map asciiUpper) (str.map asciiUpper) =
      cmpNameBody a anyCase searchMode mask str := by
  rw [← cmpNameBody_map anyCase_map]
  refine cmpNameBody_congr fun p hp ch hch => ?_
  obtain ⟨p, -, rfl⟩ := mem_map.mp hp
  have hupper : asciiUpper ch = ch := by
    rcases mem_cons.mp hch with rfl | hch
    · decide
    · obtain ⟨c, -, rfl⟩ := mem_map.mp hch
      exact asciiUpper_idem c
  rw [anyCase, asciiUpper_idem, hupper]

/-- With the mask in lower case and the name in upper case no class of one letter
matches. -/
theorem cmpNameBody_lower (a : CaseApi) (searchMode : Bool) (mask str : UnicodeString) :
    cmpNameBody a (· == ·) searchMode (mask.map asciiLower) (str.map asciiUpper) =
      cmpNameBody a noLetter searchMode mask str := by
  have hnone : cmpNameBody a (· == ·) searchMode (mask.map asciiLower) (str.map asciiUpper) =
      cmpNameBody a noLetter searchMode (mask.map asciiLower) (str.map asciiUpper) := by
    refine cmpNameBody_congr fun p hp ch hch => ?_
    obtain ⟨p, -, rfl⟩ := mem_map.mp hp
    obtain ⟨c, rfl⟩ : ∃ c, ch = asciiUpper c := by
      rcases mem_cons.mp hch with rfl | hch
      · exact ⟨0, by decide⟩
      · obtain ⟨c, -, rfl⟩ := mem_map.mp hch
        exact ⟨c, rfl⟩
    rw [noLetter]
    cases hletter : isAsciiLetter (asciiLower p) with
    | false => simp
    | true =>
      have hp : isAsciiLetter p = true := by
        rw [← isAsciiLetter_asciiUpper, ← asciiUpper_asciiLower, isAsciiLetter_asciiUpper, hletter]
      simp [asciiLower_ne_asciiUpper hp]
  rw [hnone, ← cmpNameBody_map noLetter_map, ← cmpNameBody_map noLetter_map mask]
  simp only [map_map, Function.comp_def, asciiUpper_asciiLower, asciiUpper_idem]

/-! ## The result -/

theorem uptoNul_map (f : WChar → WChar) (h : ∀ ch, f ch = 0 ↔ ch = 0) (str : UnicodeString) :
    uptoNul (str.map f) = (uptoNul str).map f := by
  rw [uptoNul, uptoNul, takeWhile_map]
  refine congrArg (fun q => (str.takeWhile q).map f) (funext fun ch => ?_)
  rw [Function.comp_apply, Bool.eq_iff_iff, bne_iff_ne, bne_iff_ne, ne_eq, ne_eq, h]

theorem asciiUpper_eq_zero (ch : WChar) : asciiUpper ch = 0 ↔ ch = 0 :=
  asciiUpper_special (by decide)

theorem asciiLower_eq_zero (ch : WChar) : asciiLower ch = 0 ↔ ch = 0 := by
  rw [← asciiUpper_eq_zero, asciiUpper_asciiLower, asciiUpper_eq_zero]

/-- Texts with the same letters give the same to a comparison that ignores case. -/
theorem cmpNameBody_sameLetters
    (hone : ∀ p ch, one (asciiUpper p) (asciiUpper ch) = one p ch)
    {pattern pattern' str str' : UnicodeString} (hpattern : SameLetters pattern' pattern)
    (hstr : SameLetters str' str) :
    cmpNameBody a one searchMode (uptoNul pattern') (uptoNul str') =
      cmpNameBody a one searchMode (uptoNul pattern) (uptoNul str) := by
  rw [← cmpNameBody_map hone, ← uptoNul_map _ asciiUpper_eq_zero, hpattern,
    ← uptoNul_map _ asciiUpper_eq_zero, hstr, uptoNul_map _ asciiUpper_eq_zero,
    uptoNul_map _ asciiUpper_eq_zero, cmpNameBody_map hone]

/-- The name matches with fewer classes, and fewer names match without regard to case. -/
theorem cmpName_between (a : CaseApi) (pattern str : UnicodeString) (searchMode : Bool) :
    (cmpNameBody a noLetter searchMode (uptoNul pattern) (uptoNul str) = true →
      cmpName a pattern str searchMode = true) ∧
    (cmpName a pattern str searchMode = true →
      cmpNameBody a anyCase searchMode (uptoNul pattern) (uptoNul str) = true) := by
  refine ⟨cmpNameBody_mono fun p _ ch _ h => ?_, cmpNameBody_mono fun p _ ch _ h => ?_⟩
  · exact (Bool.and_eq_true_iff.mp h).1
  · rw [anyCase, beq_iff_eq.mp h, beq_self_eq_true]

theorem indifferent_of_sameLetters (h : ∀ pattern' str', SameLetters pattern' mask →
      SameLetters str' str → cmpName a pattern' str' searchMode = cmpName a mask str searchMode) :
    Indifferent a mask str searchMode := by
  have hupper : SameLetters (str.map asciiUpper) str := by
    simp only [SameLetters, map_map, Function.comp_def, asciiUpper_idem]
  have hany := h (mask.map asciiUpper) (str.map asciiUpper)
    (by simp only [SameLetters, map_map, Function.comp_def, asciiUpper_idem]) hupper
  have hno := h (mask.map asciiLower) (str.map asciiUpper)
    (by simp only [SameLetters, map_map, Function.comp_def, asciiUpper_asciiLower]) hupper
  rw [cmpName, uptoNul_map _ asciiUpper_eq_zero, uptoNul_map _ asciiUpper_eq_zero,
    cmpNameBody_upper] at hany
  rw [cmpName, uptoNul_map _ asciiLower_eq_zero, uptoNul_map _ asciiUpper_eq_zero,
    cmpNameBody_lower] at hno
  exact hany.trans hno.symm

theorem sameLetters_of_indifferent (h : Indifferent a mask str searchMode)
    {pattern' str' : UnicodeString} (hpattern : SameLetters pattern' mask)
    (hstr : SameLetters str' str) :
    cmpName a pattern' str' searchMode = cmpName a mask str searchMode := by
  have hsqueeze : ∀ pattern' str', SameLetters pattern' mask → SameLetters str' str →
      cmpName a pattern' str' searchMode =
        cmpNameBody a anyCase searchMode (uptoNul mask) (uptoNul str) := by
    intro pattern' str' hpattern hstr
    obtain ⟨hlow, hhigh⟩ := cmpName_between a pattern' str' searchMode
    rw [cmpNameBody_sameLetters noLetter_map hpattern hstr, ← h] at hlow
    rw [cmpNameBody_sameLetters anyCase_map hpattern hstr] at hhigh
    rw [Bool.eq_iff_iff]
    exact ⟨hhigh, hlow⟩
  rw [hsqueeze pattern' str' hpattern hstr, hsqueeze mask str rfl rfl]

/-- No class of one letter, such as `[a]`, can meet its letter: the name does not have it in
either case. -/
def NoLetterMet (pattern str : UnicodeString) : Prop :=
  ∀ p, [openBracket, p, closeBracket] <:+: pattern → isAsciiLetter p = true →
    ∀ ch ∈ str, asciiUpper ch ≠ asciiUpper p

theorem indifferent_of_noLetterMet (h : NoLetterMet mask str) :
    Indifferent a mask str searchMode := by
  have hletter : ∀ p, [openBracket, p, closeBracket] <:+: uptoNul mask → ∀ ch ∈ 0 :: uptoNul str,
      asciiUpper p = asciiUpper ch → isAsciiLetter p = false := by
    intro p hp ch hch heq
    rw [Bool.eq_false_iff]
    intro hletter
    rcases mem_cons.mp hch with rfl | hch
    · rw [(asciiUpper_eq_zero p).mp heq] at hletter
      exact absurd hletter (by decide)
    · exact h p (hp.trans (List.takeWhile_prefix _).isInfix) hletter ch
        ((List.takeWhile_sublist _).subset hch) heq.symm
  rw [Indifferent, Bool.eq_iff_iff]
  refine ⟨cmpNameBody_mono fun p hp ch hch heq => ?_, cmpNameBody_mono fun p hp ch _ heq => ?_⟩
  · rw [anyCase, beq_iff_eq] at heq
    have hletter := hletter p hp ch hch heq
    have hupper : asciiUpper p = p := (asciiUpper_eq_iff hletter).mpr rfl
    rw [hupper, eq_comm, asciiUpper_eq_iff hletter] at heq
    simp [noLetter, hletter, heq]
  · rw [anyCase, beq_iff_eq.mp (Bool.and_eq_true_iff.mp heq).1, beq_self_eq_true]

/-- The result does not depend on the case of letters exactly where classes of one letter
do not matter, so for every mask that has none and for every name without their letters. -/
theorem cmpName_case_iff (a : CaseApi) (pattern str : UnicodeString) (searchMode : Bool) :
    ((∀ pattern' str', SameLetters pattern' pattern → SameLetters str' str →
        cmpName a pattern' str' searchMode = cmpName a pattern str searchMode) ↔
      Indifferent a pattern str searchMode) ∧
    (NoLetterMet pattern str → Indifferent a pattern str searchMode) :=
  ⟨⟨indifferent_of_sameLetters, fun h _ _ => sameLetters_of_indifferent h⟩,
    indifferent_of_noLetterMet⟩

/-- `[a]` matches `a` and not `A`. -/
theorem cmpName_class_case : cmpName asciiCase (wstr "[a]") (wstr "a") false = true ∧
    cmpName asciiCase (wstr "[a]") (wstr "A") false = false := by
  have hmask : uptoNul (wstr "[a]") = [openBracket, 97, closeBracket] := by decide
  have hclass : ∀ str : UnicodeString,
      cmpNameBody asciiCase (· == ·) false [openBracket, 97, closeBracket] str =
        ((97 : WChar) == str.headD 0 && cmpNameBody asciiCase (· == ·) false [] str.tail) :=
    fun str => by
      rw [cmpNameBody_bracket_eq (by decide), if_neg (by decide)]
      exact if_pos rfl
  constructor
  · rw [cmpName, hmask, hclass, cmpNameBody]
    decide
  · rw [cmpName, hmask, hclass, cmpNameBody]
    decide

end NetBox.Masks
