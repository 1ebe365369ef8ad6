import NetBox.Base.Integers
import NetBox.Base.Url

/-! # Sizes in texts

`TryStrToSize` and `SizeToStr` of Common.cpp. A size is a number with an optional unit.
The multiplications by 1024 are not checked, so a number that fits without its unit
is accepted although the size does not fit.
-/
namespace NetBox.Base.Text

open List

/-- `towupper` in the "C" locale, which the program never leaves. -/
def upCase (ch : WChar) : WChar := asciiUpper ch

def kiloSize : WChar := 75
def megaSize : WChar := 77
def gigaSize : WChar := 71

/-- `ASize *= 1024` in 64 bits. -/
def times1024 (size : Int) : Int := (size * 1024).bmod (2 ^ 64)

def tryStrToSize (sizeStr : UnicodeString) : Option Int :=
  let digits := sizeStr.takeWhile isDigit
  let (isNumber, size) := tryStrToInt64 digits
  if digits ≠ [] ∧ isNumber then
    match trimRight (trimLeft (sizeStr.drop digits.length)) with
    | [] => some size
    | [ch] =>
      if upCase ch = gigaSize then some (times1024 (times1024 (times1024 size)))
      else if upCase ch = megaSize then some (times1024 (times1024 size))
      else if upCase ch = kiloSize then some (times1024 size)
      else none
    | _ => none
  else none

def int64ToStr (value : Int) : UnicodeString :=
  if value < 0 then 45 :: intToStr value.natAbs else intToStr value.natAbs

def sizeToStr (size : Int) : UnicodeString :=
  if size ≤ 0 ∨ size % 1024 ≠ 0 then int64ToStr size
  else
    let size := size / 1024
    if size % 1024 ≠ 0 then int64ToStr size ++ [kiloSize]
    else
      let size := size / 1024
      if size % 1024 ≠ 0 then int64ToStr size ++ [megaSize]
      else int64ToStr (size / 1024) ++ [gigaSize]

/-- The power of 1024 that a suffix stands for. -/
def unitPower (suffix : UnicodeString) : Option Nat :=
  if suffix = [] then some 0
  else if suffix.map upCase = [kiloSize] then some 1
  else if suffix.map upCase = [megaSize] then some 2
  else if suffix.map upCase = [gigaSize] then some 3
  else none

variable {digits suffix : UnicodeString} {k : Nat}

/-! ## Multiplication -/

theorem times1024_bmod (size : Int) (k : Nat) :
    times1024 ((size * 1024 ^ k).bmod (2 ^ 64)) = (size * 1024 ^ (k + 1)).bmod (2 ^ 64) := by
  rw [times1024, Int.bmod_mul_bmod, Int.mul_assoc, ← Int.pow_succ]

/-- What fits is kept. -/
theorem bmod_eq_iff {n k : Nat} :
    ((n : Int) * 1024 ^ k).bmod (2 ^ 64) = n * 1024 ^ k ↔ n * 1024 ^ k < 2 ^ 63 := by
  have hcast : (n : Int) * 1024 ^ k = (n * 1024 ^ k : Nat) := by push_cast; rfl
  rw [hcast]
  generalize n * 1024 ^ k = size
  constructor
  · intro h
    have hlt := Int.bmod_lt (x := size) (m := 2 ^ 64) (by decide)
    omega
  · intro h
    exact Int.bmod_eq_of_le (by omega) (by omega)

/-! ## A number with a unit -/

theorem unitPower_cases (h : unitPower suffix = some k) :
    (suffix = [] ∧ k = 0) ∨ ∃ ch, suffix = [ch] ∧
      ((upCase ch = kiloSize ∧ k = 1) ∨ (upCase ch = megaSize ∧ k = 2) ∨
        (upCase ch = gigaSize ∧ k = 3)) := by
  have hsingle : ∀ c, suffix.map upCase = [c] → ∃ ch, suffix = [ch] ∧ upCase ch = c := by
    intro c hc
    obtain ⟨ch, rest, rfl, hch, hrest⟩ := map_eq_cons_iff.mp hc
    exact ⟨ch, by rw [map_eq_nil_iff.mp hrest], hch⟩
  unfold unitPower at h
  split at h
  · next hnil => exact .inl ⟨hnil, (Option.some.inj h).symm⟩
  · split at h
    · next hkilo =>
      obtain ⟨ch, hsuffix, hch⟩ := hsingle _ hkilo
      exact .inr ⟨ch, hsuffix, .inl ⟨hch, (Option.some.inj h).symm⟩⟩
    · split at h
      · next hmega =>
        obtain ⟨ch, hsuffix, hch⟩ := hsingle _ hmega
        exact .inr ⟨ch, hsuffix, .inr (.inl ⟨hch, (Option.some.inj h).symm⟩)⟩
      · split at h
        · next hgiga =>
          obtain ⟨ch, hsuffix, hch⟩ := hsingle _ hgiga
          exact .inr ⟨ch, hsuffix, .inr (.inr ⟨hch, (Option.some.inj h).symm⟩)⟩
        · cases h

/-- A unit is a letter, so it is no digit and is not trimmed. -/
theorem isLetter_of_unit {ch : WChar}
    (h : upCase ch = kiloSize ∨ upCase ch = megaSize ∨ upCase ch = gigaSize) :
    isDigit ch = false ∧ trimRight (trimLeft [ch]) = [ch] := by
  have hletter : ch = 75 ∨ ch = 77 ∨ ch = 71 ∨ ch = 107 ∨ ch = 109 ∨ ch = 103 := by
    simp only [upCase, asciiUpper, kiloSize, megaSize, gigaSize, ← UInt16.toNat_inj, UInt16.le_iff_toNat_le]
      at h ⊢
    simp only [UInt16.reduceToNat] at h ⊢
    split at h
    · next hlower =>
      rw [UInt16.toNat_sub_of_le _ _ (UInt16.le_iff_toNat_le.mpr (by simp; omega))] at h
      simp only [UInt16.reduceToNat] at h
      omega
    · omega
  rcases hletter with rfl | rfl | rfl | rfl | rfl | rfl <;> exact ⟨by decide, by decide⟩

theorem reads_digits (hne : digits ≠ []) (hdigits : ∀ ch ∈ digits, isDigit ch = true) :
    Reads [] [] digits [] := ⟨by simp, rfl, hdigits, hne, by simp⟩

theorem tryStrToInt64_digits (hne : digits ≠ []) (hdigits : ∀ ch ∈ digits, isDigit ch = true)
    {value : Int} : tryStrToInt64 digits = (true, value) ↔
      value = digitsValue digits ∧ digitsValue digits < 2 ^ 63 ∧
        (digitsValue digits ≠ 0 ∨ digits = [48]) := by
  have hread := (reads_digits hne hdigits).wtoi64
  rw [append_nil, nil_append, nil_append] at hread
  have hnul : 0 ∉ digits := fun hmem => absurd (hdigits 0 hmem) (by decide)
  rw [tryStrToInt64_iff, hread, saturated_iff, takeWhile_nul hnul, signed, if_neg (by simp),
    InInt64]
  constructor
  · rintro ⟨⟨rfl, -, hhigh⟩, hzero⟩
    exact ⟨rfl, by omega, hzero.imp_left (by omega)⟩
  · rintro ⟨rfl, hhigh, hzero⟩
    exact ⟨⟨rfl, by omega, by omega⟩, hzero.imp_left (by omega)⟩

theorem takeWhile_number (hdigits : ∀ ch ∈ digits, isDigit ch = true)
    (hk : unitPower suffix = some k) : (digits ++ suffix).takeWhile isDigit = digits := by
  rw [takeWhile_append_of_pos hdigits]
  rcases unitPower_cases hk with ⟨rfl, -⟩ | ⟨ch, rfl, hch⟩
  · rw [takeWhile_nil, append_nil]
  · have hletter := (isLetter_of_unit (hch.imp And.left (Or.imp And.left And.left))).1
    rw [takeWhile_cons_of_neg (by simp [hletter]), append_nil]

/-- The size is what is left in 64 bits, where the number is accepted. -/
theorem tryStrToSize_some (hne : digits ≠ []) (hdigits : ∀ ch ∈ digits, isDigit ch = true)
    (hk : unitPower suffix = some k)
    (hnumber : tryStrToInt64 digits = (true, (digitsValue digits : Int))) :
    tryStrToSize (digits ++ suffix) =
      some (((digitsValue digits : Int) * 1024 ^ k).bmod (2 ^ 64)) := by
  have hvalue := ((tryStrToInt64_digits hne hdigits).mp hnumber).2.1
  have htimes := times1024_bmod (digitsValue digits)
  have hzero : ((digitsValue digits : Int) * 1024 ^ 0).bmod (2 ^ 64) = (digitsValue digits : Int) :=
    ((bmod_eq_iff (k := 0)).mpr (by omega)).trans (by omega)
  unfold tryStrToSize
  rw [takeWhile_number hdigits hk]
  dsimp only
  rw [hnumber]
  dsimp only
  rw [if_pos ⟨hne, rfl⟩, drop_left]
  rcases unitPower_cases hk with ⟨rfl, rfl⟩ | ⟨ch, rfl, hch⟩
  · rw [hzero]
    rfl
  · rw [(isLetter_of_unit (hch.imp And.left (Or.imp And.left And.left))).2]
    dsimp only
    rcases hch with ⟨hch, rfl⟩ | ⟨hch, rfl⟩ | ⟨hch, rfl⟩
    · rw [hch, if_neg (by decide), if_neg (by decide), if_pos rfl, ← htimes, hzero]
    · rw [hch, if_neg (by decide), if_pos rfl, ← htimes, ← htimes, hzero]
    · rw [hch, if_pos rfl, ← htimes, ← htimes, ← htimes, hzero]

theorem isNumber_of_tryStrToSize (hdigits : ∀ ch ∈ digits, isDigit ch = true)
    (hk : unitPower suffix = some k) {size : Int}
    (h : tryStrToSize (digits ++ suffix) = some size) : (tryStrToInt64 digits).1 = true := by
  unfold tryStrToSize at h
  rw [takeWhile_number hdigits hk] at h
  dsimp only at h
  split at h
  · next hnumber => exact hnumber.2
  · cases h

/-! ## A size that was written is read back -/

theorem sizeToStr_eq {n : Nat} : ∃ m k suffix, sizeToStr n = intToStr m ++ suffix ∧
    unitPower suffix = some k ∧ n = m * 1024 ^ k := by
  have hstr : ∀ m : Nat, int64ToStr m = intToStr m := fun m => if_neg (by omega)
  unfold sizeToStr
  split
  · exact ⟨n, 0, [], by rw [hstr, append_nil], rfl, by omega⟩
  · dsimp only
    have hdiv : (n : Int) / 1024 = (n / 1024 : Nat) := by omega
    have hdiv2 : (n : Int) / 1024 / 1024 = (n / 1024 / 1024 : Nat) := by omega
    have hdiv3 : (n : Int) / 1024 / 1024 / 1024 = (n / 1024 / 1024 / 1024 : Nat) := by omega
    split
    · exact ⟨n / 1024, 1, [kiloSize], by rw [hdiv, hstr], rfl, by omega⟩
    · split
      · exact ⟨n / 1024 / 1024, 2, [megaSize], by rw [hdiv2, hstr], rfl, by omega⟩
      · exact ⟨n / 1024 / 1024 / 1024, 3, [gigaSize], by rw [hdiv3, hstr], rfl, by omega⟩

theorem tryStrToSize_sizeToStr {n : Nat} (h : n < 2 ^ 63) : tryStrToSize (sizeToStr n) = some ↑n := by
  obtain ⟨m, k, suffix, hstr, hk, rfl⟩ := sizeToStr_eq (n := n)
  have hdigits : ∀ ch ∈ intToStr m, isDigit ch = true := fun ch => isDigit_of_mem_intToStr
  have hvalue : digitsValue (intToStr m) = m := foldl_intToStr m
  have hpow : 0 < 1024 ^ k := Nat.pow_pos (by decide)
  have hm : m < 2 ^ 63 := Nat.lt_of_le_of_lt (Nat.le_mul_of_pos_right m hpow) h
  have hnumber : tryStrToInt64 (intToStr m) = (true, (digitsValue (intToStr m) : Int)) := by
    refine (tryStrToInt64_digits (intToStr_ne_nil m) hdigits).mpr ⟨rfl, by rwa [hvalue], ?_⟩
    rw [hvalue]
    rcases Nat.eq_zero_or_pos m with rfl | hpos
    · exact .inr rfl
    · exact .inl (by omega)
  rw [hstr, tryStrToSize_some (intToStr_ne_nil m) hdigits hk hnumber, hvalue]
  rw [bmod_eq_iff.mpr h]
  push_cast
  rfl

/-- What `TryStrToSize` returns is the size exactly when a number that fits still fits
with its unit, and it reads every size that `SizeToStr` writes. -/
theorem tryStrToSize_exact_iff (digits suffix : UnicodeString) (k n : Nat) (hne : digits ≠ [])
    (hdigits : ∀ ch ∈ digits, isDigit ch = true) (hk : unitPower suffix = some k)
    (hn : n < 2 ^ 63) :
    ((∀ size, tryStrToSize (digits ++ suffix) = some size →
        size = digitsValue digits * 1024 ^ k) ∧
      tryStrToSize (sizeToStr n) = some ↑n) ↔
    (digitsValue digits < 2 ^ 63 → digitsValue digits * 1024 ^ k < 2 ^ 63) := by
  rw [and_iff_left (tryStrToSize_sizeToStr hn)]
  by_cases hnumber : tryStrToInt64 digits = (true, (digitsValue digits : Int))
  · have hfits := ((tryStrToInt64_digits hne hdigits).mp hnumber).2.1
    rw [tryStrToSize_some hne hdigits hk hnumber]
    simp only [Option.some.injEq, forall_eq', bmod_eq_iff, hfits, true_imp_iff]
  · -- a number is refused only when it does not fit, or is another spelling of zero
    have hrefused := mt (tryStrToInt64_digits hne hdigits).mpr hnumber
    simp only [true_and, not_and_or, not_or, not_not, Nat.not_lt] at hrefused
    refine iff_of_true (fun size h => ?_) (fun hlt => ?_)
    · have hfound := isNumber_of_tryStrToSize hdigits hk h
      obtain ⟨hvalue, -⟩ := (tryStrToInt64_digits hne hdigits).mp (Prod.ext hfound rfl)
      exact absurd (Prod.ext hfound hvalue) hnumber
    · rcases hrefused with hlarge | ⟨hzero, -⟩
      · omega
      · rw [hzero, Nat.zero_mul]
        decide

theorem tryStrToSize_exact_kilo :
    (∀ size, tryStrToSize (wstr "1536" ++ wstr "k") = some size →
        size = digitsValue (wstr "1536") * 1024 ^ 1) ∧
      tryStrToSize (sizeToStr (1572864 : Nat)) = some ↑(1572864 : Nat) :=
  (tryStrToSize_exact_iff (wstr "1536") (wstr "k") 1 1572864 (by decide)
    (forall_mem_of_all (by decide)) (by decide) (by decide)).mpr (by decide)

/-- 9007199254740993G is accepted as 1073741824. -/
theorem tryStrToSize_wraps : tryStrToSize (wstr "9007199254740993G") = some (2 ^ 30) ∧
    digitsValue (wstr "9007199254740993") * 1024 ^ 3 = 2 ^ 83 + 2 ^ 30 := by
  decide

end NetBox.Base.Text
