import NetBox.Base.Number

/-! # Which texts are taken for integers

`TryStrToInt64` relies on `_wtoi64`, which skips blanks, reads a number and ignores
what follows, and on a comparison with `L"0"` that has to tell a zero from no number.
So it takes a number with something around it, and it does not take a zero that is
spelt another way.
-/
namespace NetBox.Base.Text

open List

def isSign (sign : UnicodeString) : Bool := sign == [] || sign == [43] || sign == [45]

def digitsValue (digits : UnicodeString) : Nat :=
  digits.foldl (fun n ch => n * 10 + (ch.toNat - 48)) 0

def signed (sign : UnicodeString) (number : Nat) : Int :=
  if sign = [45] then -number else number

/-- The values of `int64_t`. -/
def InInt64 (value : Int) : Prop := -2 ^ 63 ≤ value ∧ value ≤ 2 ^ 63 - 1

/-- The text is an optional sign and digits, and its value fits. -/
def IsInteger (str : UnicodeString) (value : Int) : Prop :=
  ∃ sign digits, str = sign ++ digits ∧ isSign sign = true ∧ digits ≠ [] ∧
    (∀ ch ∈ digits, isDigit ch = true) ∧ value = signed sign (digitsValue digits) ∧ InInt64 value

/-- A text as `_wtoi64` reads it, where there is a number. -/
structure Reads (blanks sign digits rest : UnicodeString) : Prop where
  skipped : ∀ ch ∈ blanks, isSpace ch = true
  isSign : isSign sign = true
  isDigit : ∀ ch ∈ digits, isDigit ch = true
  ne_nil : digits ≠ []
  ended : ∀ ch ∈ rest.head?, Text.isDigit ch = false

variable {str blanks sign digits rest : UnicodeString} {ch : WChar} {value : Int}

/-! ## What `_wtoi64` reads -/

def signOf (str : UnicodeString) : UnicodeString :=
  if str.head? = some 43 ∨ str.head? = some 45 then str.take 1 else []

def digitsOf (str : UnicodeString) : UnicodeString :=
  (str.drop (signOf str).length).takeWhile isDigit

/-- The nearest value of `int64_t`, and whether it is another one. -/
def saturated (value : Int) : Int × Bool :=
  if value > 2 ^ 63 - 1 then (2 ^ 63 - 1, true)
  else if value < -2 ^ 63 then (-2 ^ 63, true)
  else (value, false)

theorem saturated_iff {value v : Int} : saturated value = (v, false) ↔ v = value ∧ InInt64 v := by
  unfold saturated InInt64
  constructor
  · intro h
    split at h
    · cases h
    · split at h <;> cases h
      exact ⟨rfl, by omega, by omega⟩
  · rintro ⟨rfl, hlow, hhigh⟩
    rw [if_neg (by omega), if_neg (by omega)]

theorem wtoi64_eq (str : UnicodeString) :
    wtoi64 str = saturated (signed (signOf (str.dropWhile isSpace))
      (digitsValue (digitsOf (str.dropWhile isSpace)))) := by
  unfold wtoi64
  generalize str.dropWhile isSpace = body
  dsimp only
  split
  · rfl
  · rfl
  · next hminus hplus =>
    have hsign : signOf body = [] := by
      refine if_neg ?_
      cases body with
      | nil => simp
      | cons ch body =>
        have h45 : ch ≠ 45 := fun he => hminus body (by rw [he])
        have h43 : ch ≠ 43 := fun he => hplus body (by rw [he])
        simp [h43, h45]
    rw [digitsOf, hsign]
    rfl

theorem mem_of_isSign (h : isSign sign = true) (hch : ch ∈ sign) : ch = 43 ∨ ch = 45 := by
  simp only [isSign, Bool.or_eq_true, beq_iff_eq] at h
  rcases h with (rfl | rfl) | rfl
  · cases hch
  · exact .inl (mem_singleton.mp hch)
  · exact .inr (mem_singleton.mp hch)

theorem isSign_signOf (str : UnicodeString) : isSign (signOf str) = true := by
  unfold signOf
  split
  · next h =>
    cases str with
    | nil => simp at h
    | cons ch str =>
      simp only [head?_cons, Option.some.injEq] at h
      rcases h with rfl | rfl <;> rfl
  · rfl

theorem signOf_append (str : UnicodeString) :
    signOf str ++ str.drop (signOf str).length = str := by
  unfold signOf
  split
  · cases str <;> simp
  · simp

theorem signOf_eq (hsign : isSign sign = true) (h : ∀ ch ∈ rest.head?, isDigit ch = true) :
    signOf (sign ++ rest) = sign := by
  simp only [isSign, Bool.or_eq_true, beq_iff_eq] at hsign
  rcases hsign with (rfl | rfl) | rfl
  · refine if_neg ?_
    rintro (he | he) <;> exact absurd (h _ he) (by decide)
  · rfl
  · rfl

theorem dropWhile_of_head {p : WChar → Bool} (h : ∀ ch ∈ str.head?, p ch = false) :
    str.dropWhile p = str := by
  cases str with
  | nil => rfl
  | cons ch str => rw [dropWhile_cons_of_neg (by simp [h ch rfl])]

namespace Reads

theorem head_digits (h : Reads blanks sign digits rest) :
    ∀ ch ∈ (digits ++ rest).head?, Text.isDigit ch = true := by
  intro ch hch
  rw [head?_append_of_ne_nil _ h.ne_nil] at hch
  exact h.isDigit ch (mem_of_mem_head? hch)

theorem head_body (h : Reads blanks sign digits rest) :
    ∀ ch ∈ (sign ++ (digits ++ rest)).head?, isSpace ch = false := by
  intro ch hch
  rw [head?_append] at hch
  cases hsign : sign.head? with
  | none =>
    rw [hsign, Option.none_or] at hch
    exact isSpace_of_isDigit (h.head_digits ch hch)
  | some c =>
    rw [hsign, Option.some_or, Option.mem_some] at hch
    rcases mem_of_isSign h.isSign (mem_of_mem_head? hsign) with rfl | rfl <;>
      rw [← hch] <;> decide

/-- `_wtoi64` gives the number, whatever there is around it. -/
theorem wtoi64 (h : Reads blanks sign digits rest) :
    wtoi64 (blanks ++ (sign ++ (digits ++ rest))) =
      saturated (signed sign (digitsValue digits)) := by
  have hdigits : digitsOf (sign ++ (digits ++ rest)) = digits := by
    rw [digitsOf, signOf_eq h.isSign h.head_digits, drop_left,
      takeWhile_append_of_pos h.isDigit]
    cases rest with
    | nil => rw [takeWhile_nil, append_nil]
    | cons ch rest => rw [takeWhile_cons_of_neg (by simp [h.ended ch rfl]), append_nil]
  rw [wtoi64_eq, dropWhile_append_of_pos h.skipped, dropWhile_of_head h.head_body, hdigits,
    signOf_eq h.isSign h.head_digits]

end Reads

/-- A number that is not 0 has been read from digits. -/
theorem exists_reads (h : Text.wtoi64 str = (value, false)) (hne : value ≠ 0) :
    ∃ blanks sign digits rest, Reads blanks sign digits rest ∧
      str = blanks ++ (sign ++ (digits ++ rest)) ∧ value = signed sign (digitsValue digits) ∧
      InInt64 value := by
  rw [wtoi64_eq, saturated_iff] at h
  obtain ⟨hvalue, hfits⟩ := h
  refine ⟨str.takeWhile isSpace, signOf (str.dropWhile isSpace), digitsOf (str.dropWhile isSpace),
    ((str.dropWhile isSpace).drop (signOf (str.dropWhile isSpace)).length).dropWhile isDigit,
    ⟨fun ch => mem_takeWhile_imp, isSign_signOf _, fun ch => mem_takeWhile_imp, ?_, ?_⟩,
    ?_, hvalue, hfits⟩
  · intro hnil
    rw [hnil] at hvalue
    refine hne (hvalue.trans ?_)
    simp [signed, digitsValue]
  · intro ch hch
    have hhead := head?_dropWhile_not isDigit
      ((str.dropWhile isSpace).drop (signOf (str.dropWhile isSpace)).length)
    rw [hch] at hhead
    simpa using hhead
  · rw [digitsOf, takeWhile_append_dropWhile, signOf_append, takeWhile_append_dropWhile]

/-! ## What is accepted -/

theorem tryStrToInt64_iff : tryStrToInt64 str = (true, value) ↔
    Text.wtoi64 str = (value, false) ∧ (value ≠ 0 ∨ str.takeWhile (· != 0) = [48]) := by
  have hzero : wstr "0" = [48] := rfl
  unfold tryStrToInt64
  split
  · next hnil =>
    subst hnil
    have hnone : Text.wtoi64 [] = (0, false) := rfl
    simp only [hnone, Prod.mk.injEq, Bool.false_eq_true, false_and, takeWhile_nil,
      nil_eq, reduceCtorEq, or_false, and_true, false_iff, not_and, not_not]
    exact Eq.symm
  · generalize Text.wtoi64 str = read
    obtain ⟨v, outOfRange⟩ := read
    simp only [Prod.mk.injEq, Bool.and_eq_true, Bool.not_eq_true', Bool.or_eq_true, bne_iff_ne,
      beq_iff_eq, hzero]
    constructor
    · rintro ⟨⟨hrange, h⟩, rfl⟩
      exact ⟨⟨rfl, hrange⟩, h⟩
    · rintro ⟨⟨rfl, hrange⟩, h⟩
      exact ⟨⟨hrange, h⟩, rfl⟩

/-- The texts that `TryStrToInt64` gets wrong. -/
inductive Misread : UnicodeString → Prop
  /-- A zero that is not spelt `0`. -/
  | zero {sign zeros : UnicodeString} : isSign sign = true → zeros ≠ [] →
      (∀ ch ∈ zeros, ch = 48) → sign ++ zeros ≠ [48] → Misread (sign ++ zeros)
  /-- The comparison with `L"0"` does not see what stands behind a U+0000. -/
  | nul (rest : UnicodeString) : Misread (48 :: 0 :: rest)
  /-- Another number than 0 that fits, with blanks before it or anything behind it. -/
  | around {blanks sign digits rest : UnicodeString} : Reads blanks sign digits rest →
      digitsValue digits ≠ 0 → InInt64 (signed sign (digitsValue digits)) →
      blanks ≠ [] ∨ rest ≠ [] → Misread (blanks ++ (sign ++ (digits ++ rest)))

theorem signed_eq_zero {n : Nat} : signed sign n = 0 ↔ n = 0 := by
  unfold signed
  split <;> omega

theorem digitsValue_eq_zero (h : ∀ ch ∈ digits, isDigit ch = true) :
    digitsValue digits = 0 ↔ ∀ ch ∈ digits, ch = 48 := by
  -- the value so far is 0 as long as only zeros have been read
  have hfold : ∀ n, digits.foldl (fun n ch => n * 10 + (ch.toNat - 48)) n = 0 ↔
      n = 0 ∧ ∀ ch ∈ digits, ch = 48 := by
    induction digits with
    | nil => simp
    | cons ch digits ih =>
      intro n
      have hch := isDigit_iff.mp (h ch mem_cons_self)
      have hzero : ch = 48 ↔ ch.toNat - 48 = 0 := by
        rw [← UInt16.toNat_inj]
        show ch.toNat = 48 ↔ _
        omega
      rw [foldl_cons, ih (fun c hc => h c (mem_cons_of_mem _ hc)), forall_mem_cons,
        hzero]
      constructor
      · rintro ⟨hn, hrest⟩
        exact ⟨by omega, by omega, hrest⟩
      · rintro ⟨hn, hch, hrest⟩
        exact ⟨by omega, hrest⟩
  exact (hfold 0).trans (and_iff_right rfl)

theorem IsInteger.reads (h : IsInteger str value) : ∃ sign digits,
    Reads [] sign digits [] ∧ str = sign ++ digits ∧ value = signed sign (digitsValue digits) ∧
      InInt64 value := by
  obtain ⟨sign, digits, hstr, hsign, hne, hdigits, hvalue, hfits⟩ := h
  exact ⟨sign, digits, ⟨by simp, hsign, hdigits, hne, by simp⟩, hstr, hvalue, hfits⟩

theorem IsInteger.wtoi64 (h : IsInteger str value) : Text.wtoi64 str = (value, false) := by
  obtain ⟨sign, digits, hreads, hstr, hvalue, hfits⟩ := h.reads
  have hread := hreads.wtoi64
  rw [append_nil, nil_append, ← hstr, ← hvalue] at hread
  exact hread.trans (saturated_iff.mpr ⟨rfl, hfits⟩)

/-- All of an integer is digits, but for its first character. -/
theorem IsInteger.tail (h : IsInteger str value) : ∀ ch ∈ str.tail, isDigit ch = true := by
  obtain ⟨sign, digits, hreads, hstr, -⟩ := h.reads
  have hsign := hreads.isSign
  simp only [isSign, Bool.or_eq_true, beq_iff_eq] at hsign
  intro ch hch
  rcases hsign with (rfl | rfl) | rfl <;> rw [hstr] at hch
  · exact hreads.isDigit ch (mem_of_mem_tail hch)
  · exact hreads.isDigit ch hch
  · exact hreads.isDigit ch hch

theorem IsInteger.head (h : IsInteger str value) : ∀ ch ∈ str.head?, isSpace ch = false := by
  obtain ⟨sign, digits, hreads, hstr, -⟩ := h.reads
  have hhead := hreads.head_body
  rwa [append_nil, ← hstr] at hhead

theorem not_mem_nul (h : IsInteger str value) : 0 ∉ str := by
  obtain ⟨sign, digits, hreads, hstr, -⟩ := h.reads
  rw [hstr, mem_append]
  rintro (hmem | hmem)
  · rcases mem_of_isSign hreads.isSign hmem with he | he <;> exact absurd he (by decide)
  · exact absurd (hreads.isDigit 0 hmem) (by decide)

theorem takeWhile_nul (h : 0 ∉ str) : str.takeWhile (· != 0) = str := by
  rw [takeWhile_eq_self_iff]
  intro ch hch
  rw [bne_iff_ne]
  exact fun he => h (he ▸ hch)

theorem eq_of_takeWhile_nul (h : str.takeWhile (· != 0) = [48]) :
    str = [48] ∨ ∃ rest, str = 48 :: 0 :: rest := by
  have hstr := takeWhile_append_dropWhile (p := (· != 0)) (l := str)
  rw [h] at hstr
  cases hdrop : str.dropWhile (· != 0) with
  | nil => exact .inl (by rw [← hstr, hdrop]; rfl)
  | cons ch rest =>
    have hhead := head?_dropWhile_not (· != 0) str
    rw [hdrop] at hhead
    have hch : ch = 0 := by simpa using hhead
    exact .inr ⟨rest, by rw [← hstr, hdrop, hch]; rfl⟩

theorem isInteger_zero : IsInteger [48] 0 :=
  ⟨[], [48], rfl, rfl, by simp, forall_mem_of_all (by decide), rfl, by unfold InInt64; decide⟩

/-- A text that is not misread is accepted only as the integer it is. -/
theorem isInteger_of_accepted (hmis : ¬ Misread str) (h : tryStrToInt64 str = (true, value)) :
    IsInteger str value := by
  obtain ⟨hread, hne | hnul⟩ := tryStrToInt64_iff.mp h
  · obtain ⟨blanks, sign, digits, rest, hreads, hstr, hvalue, hfits⟩ := exists_reads hread hne
    have hdigits : digitsValue digits ≠ 0 := fun he =>
      hne (hvalue.trans (signed_eq_zero.mpr he))
    have halone : blanks = [] ∧ rest = [] := by
      by_contra hsome
      refine hmis (hstr ▸ .around hreads hdigits (hvalue ▸ hfits) ?_)
      rcases Classical.not_and_iff_not_or_not.mp hsome with h | h
      · exact .inl h
      · exact .inr h
    rw [halone.1, halone.2, append_nil, nil_append] at hstr
    exact ⟨sign, digits, hstr, hreads.isSign, hreads.ne_nil, hreads.isDigit, hvalue, hfits⟩
  · rcases eq_of_takeWhile_nul hnul with rfl | ⟨rest, rfl⟩
    · rw [isInteger_zero.wtoi64, Prod.mk.injEq] at hread
      exact hread.1 ▸ isInteger_zero
    · exact absurd (.nul rest) hmis

theorem accepted_of_isInteger (hmis : ¬ Misread str) (h : IsInteger str value) :
    tryStrToInt64 str = (true, value) := by
  refine tryStrToInt64_iff.mpr ⟨h.wtoi64, ?_⟩
  by_cases hvalue : value = 0
  · right
    rw [takeWhile_nul (not_mem_nul h)]
    by_contra hother
    obtain ⟨sign, digits, hreads, hstr, heq, -⟩ := h.reads
    have hzeros := (digitsValue_eq_zero hreads.isDigit).mp
      (signed_eq_zero.mp (heq.symm.trans hvalue))
    exact hmis (hstr ▸ .zero hreads.isSign hreads.ne_nil hzeros (hstr ▸ hother))
  · exact .inl hvalue

/-- What is misread is refused though it is an integer, or accepted though it is none. -/
theorem misread_spec (h : Misread str) : ∃ value,
    ¬ (tryStrToInt64 str = (true, value) ↔ IsInteger str value) := by
  cases h with
  | @zero sign zeros hsign hne hzeros hother =>
    have hdigits : ∀ ch ∈ zeros, isDigit ch = true := fun ch hch => by rw [hzeros ch hch]; rfl
    have hint : IsInteger (sign ++ zeros) 0 :=
      ⟨sign, zeros, rfl, hsign, hne, hdigits,
        (signed_eq_zero.mpr ((digitsValue_eq_zero hdigits).mpr hzeros)).symm, by
          unfold InInt64; decide⟩
    refine ⟨0, fun hiff => ?_⟩
    rcases (tryStrToInt64_iff.mp (hiff.mpr hint)).2 with hzero | hzero
    · exact hzero rfl
    · rw [takeWhile_nul (not_mem_nul hint)] at hzero
      exact hother hzero
  | nul rest =>
    have hreads : Reads [] [] [48] (0 :: rest) :=
      ⟨by simp, rfl, forall_mem_of_all (by decide), by simp, by simp [isDigit]⟩
    refine ⟨0, fun hiff => ?_⟩
    have hint := hiff.mp (tryStrToInt64_iff.mpr ⟨hreads.wtoi64, .inr (by simp)⟩)
    exact not_mem_nul hint (by simp)
  | @around blanks sign digits rest hreads hdigits hfits hsome =>
    refine ⟨signed sign (digitsValue digits), fun hiff => ?_⟩
    have hint := hiff.mp (tryStrToInt64_iff.mpr
      ⟨hreads.wtoi64.trans (saturated_iff.mpr ⟨rfl, hfits⟩), .inl (mt signed_eq_zero.mp hdigits)⟩)
    cases blanks with
    | cons ch blanks =>
      have hspace := hreads.skipped ch mem_cons_self
      rw [hint.head ch rfl] at hspace
      cases hspace
    | nil =>
      obtain ⟨ch, rest, rfl⟩ := exists_cons_of_ne_nil (hsome.resolve_left (by simp))
      have hmem : ch ∈ ([] ++ (sign ++ (digits ++ ch :: rest))).tail := by
        obtain ⟨d, ds, rfl⟩ := exists_cons_of_ne_nil hreads.ne_nil
        cases sign <;> simp
      have hdigit := hint.tail ch hmem
      rw [hreads.ended ch rfl] at hdigit
      cases hdigit

/-- `TryStrToInt64` accepts the integers and yields their values, but for the texts it
misreads: other spellings of zero, which it refuses, and numbers with something
around them, which it accepts. -/
theorem tryStrToInt64_right_iff (str : UnicodeString) :
    (∀ value, tryStrToInt64 str = (true, value) ↔ IsInteger str value) ↔ ¬ Misread str := by
  constructor
  · intro h hmis
    obtain ⟨value, hwrong⟩ := misread_spec hmis
    exact hwrong (h value)
  · exact fun hmis value => ⟨isInteger_of_accepted hmis, accepted_of_isInteger hmis⟩

theorem tryStrToInt64_misreads : tryStrToInt64 (wstr "12abc") = (true, 12) ∧
    (∀ value, ¬ IsInteger (wstr "12abc") value) ∧
    (tryStrToInt64 (wstr "00")).1 = false ∧ IsInteger (wstr "00") 0 := by
  refine ⟨by decide, fun value h => ?_, by decide, ?_⟩
  · exact absurd (h.tail 97 (by decide)) (by decide)
  · exact ⟨[], wstr "00", rfl, rfl, by decide, forall_mem_of_all (by decide), by decide,
      by unfold InInt64; decide⟩

end NetBox.Base.Text
