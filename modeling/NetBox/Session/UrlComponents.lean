import NetBox.Session.History

/-! # Components of URLs

What `EncodeUrlString` and `EncodeUrlPath` write is a legal component of a URL, and
`DecodeUrlChars` reads the text back from it, for exactly the texts that have one code
unit for every character and no U+0000.
-/
namespace NetBox.Session

open Base.Text Lib List

/-- The characters that need no escape in a component: the unreserved ones and those
that only separate parts of it. -/
def isLegal (ch : WChar) : Bool :=
  isLetter ch || isDigit ch || (wstr "-._~!$&'()*+,;=").contains ch

/-- Legal characters and escapes `%XX`, with `also` left as they are. -/
def isComponent (also : UnicodeString) : UnicodeString → Bool
  | [] => true
  | [a] => isLegal a || also.contains a
  | [a, b] => (isLegal a || also.contains a) && (isLegal b || also.contains b)
  | a :: b :: c :: str =>
    if a = percent then isHex b && isHex c && isComponent also str
    else (isLegal a || also.contains a) && isComponent also (b :: c :: str)

theorem isComponent_cons {also : UnicodeString} {a : WChar}
    (ha : isLegal a = true ∨ also.contains a = true) (hne : a ≠ percent) (str : UnicodeString) :
    isComponent also (a :: str) = isComponent also str := by
  have hlegal : (isLegal a || also.contains a) = true := Bool.or_eq_true_iff.mpr ha
  match str with
  | [] => simp only [isComponent, hlegal]
  | [b] => simp only [isComponent, hlegal, Bool.true_and]
  | b :: c :: str => simp only [isComponent, if_neg hne, hlegal, Bool.true_and]

theorem isComponent_escapes (also : UnicodeString) (bytes : List UInt8) (str : UnicodeString) :
    isComponent also ((bytes.flatMap fun b => percent :: byteToHex b) ++ str) =
      isComponent also str := by
  induction bytes with
  | nil => rfl
  | cons b bytes ih =>
    obtain ⟨high, low, hhex, hhigh, hlow, -⟩ := byteToHex_decode b
    rw [flatMap_cons, hhex, append_assoc]
    show isComponent also (percent :: high :: low :: (_ ++ str)) = _
    simp only [isComponent, if_true, hhigh, hlow, Bool.true_and, ih]

/-- An encoded text is a component, where U+0000 is not among what is left alone. -/
theorem isComponent_doEncodeUrl (t : TextApi) {doNotEncode str : UnicodeString}
    (h : ∀ c ∈ str, found doNotEncode c = true → doNotEncode.contains c = true ∧ c ≠ percent) :
    isComponent doNotEncode (t.doEncodeUrl doNotEncode str) = true := by
  induction str with
  | nil => rfl
  | cons c str ih =>
    have hrest := ih fun d hd => h d (mem_cons_of_mem _ hd)
    rw [TextApi.doEncodeUrl] at hrest ⊢
    rw [flatMap_cons]
    split
    next hplain =>
      have hlegal : (isLegal c = true ∨ doNotEncode.contains c = true) ∧ c ≠ percent := by
        cases hfound : found doNotEncode c with
        | true => exact ⟨.inr (h c mem_cons_self hfound).1, (h c mem_cons_self hfound).2⟩
        | false =>
          rw [isPlain, hfound, Bool.or_false] at hplain
          have hmarks : ∀ c ∈ wstr "_-.*", isLegal c = true ∧ c ≠ percent :=
            forall_mem_of_all (by decide)
          rw [Bool.or_eq_true_iff] at hplain
          rcases hplain with hplain | hplain
          · refine ⟨.inl (by rw [isLegal, hplain, Bool.true_or]), fun he => ?_⟩
            rw [he] at hplain
            revert hplain
            decide
          · have hmark := hmarks c (contains_iff_mem.mp hplain)
            exact ⟨.inl hmark.1, hmark.2⟩
      rw [singleton_append, isComponent_cons hlegal.1 hlegal.2, hrest]
    next => rw [isComponent_escapes, hrest]

/-- A text is read back from its encodings, and these are legal components, exactly
when it has neither a surrogate nor a U+0000. -/
theorem url_component_iff (t : TextApi) (ht : ConvertsUtf8 t) (str : UnicodeString) :
    (t.decodeUrlChars (t.encodeUrlString str) = str ∧
      isComponent [] (t.encodeUrlString str) = true ∧
      t.decodeUrlChars (t.encodeUrlPath str) = str ∧
      isComponent [slash] (t.encodeUrlPath str) = true) ↔ Plain str := by
  refine ⟨fun h => (string_decoded_iff ht).mp h.1, fun h => ?_⟩
  have hzero : 0 ∉ str := fun hmem => (h 0 hmem).1 rfl
  have hpath := (path_decoded_iff ht).mpr h
  rw [uptoNul_eq (mt zero_mem_encodeUrlPath.mp hzero)] at hpath
  refine ⟨(string_decoded_iff ht).mpr h, ?_, hpath, ?_⟩
  · refine isComponent_doEncodeUrl t fun c _ hfound => ?_
    simp [found] at hfound
  · refine isComponent_doEncodeUrl t fun c hc hfound => ?_
    rcases found_slash hfound with rfl | rfl
    · exact ⟨by decide, by decide⟩
    · exact absurd hc hzero

theorem url_component_accents :
    utf8Text.decodeUrlChars (utf8Text.encodeUrlString [0xE9, 47, 0x20AC]) = [0xE9, 47, 0x20AC] ∧
      isComponent [] (utf8Text.encodeUrlString [0xE9, 47, 0x20AC]) = true ∧
      utf8Text.decodeUrlChars (utf8Text.encodeUrlPath [0xE9, 47, 0x20AC]) = [0xE9, 47, 0x20AC] ∧
      isComponent [slash] (utf8Text.encodeUrlPath [0xE9, 47, 0x20AC]) = true :=
  (url_component_iff utf8Text utf8Text_converts [0xE9, 47, 0x20AC]).mpr (by decide)

/-- The halves of U+1F600 are encoded one by one and come back as U+FFFD. -/
theorem url_component_surrogates : Utf8.WellFormed [0xD83D, 0xDE00] ∧
    utf8Text.decodeUrlChars (utf8Text.encodeUrlString [0xD83D, 0xDE00]) = [0xFFFD, 0xFFFD] := by
  refine ⟨⟨[Char.ofNat 0x1F600], by decide⟩, ?_⟩
  exact decodeUrlChars_encoded utf8Text_converts
    (fun c => isPlain_spec fun c h => by simp [found] at h) (by decide)

end NetBox.Session
