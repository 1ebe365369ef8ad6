import NetBox.Base.Text
import Mathlib.Algebra.Ring.Int.Defs
import Mathlib.Algebra.Ring.Nat
import Mathlib.Data.Int.DivMod
import Mathlib.Data.List.TakeWhile

/-! # Numbers in texts

`TryStrToInt64` of Sysutils.cpp and what is built on it. It rests on `_wtoi64`,
which reads a number at the beginning of a text and ignores what follows.
-/
namespace NetBox.Base.Text

open List

def isSpace (ch : WChar) : Bool :=
  (9 ≤ ch && ch ≤ 13) || ch == 32 || ch == 0x85 || ch == 0xA0 || ch == 0x1680 ||
    (0x2000 ≤ ch && ch ≤ 0x200A) || ch == 0x2028 || ch == 0x2029 || ch == 0x202F || ch == 0x205F ||
    ch == 0x3000

def isDigit (ch : WChar) : Bool := 48 ≤ ch && ch ≤ 57

/-- The number at the beginning of a text, and whether it does not fit into 64
bits. -/
def wtoi64 (str : UnicodeString) : Int × Bool :=
  let str := str.dropWhile isSpace
  let (negative, str) :=
    match str with
    | 45 :: rest => (true, rest)
    | 43 :: rest => (false, rest)
    | _ => (false, str)
  let number : Nat := (str.takeWhile isDigit).foldl (fun n ch => n * 10 + (ch.toNat - 48)) 0
  let value : Int := if negative then -number else number
  if value > 2 ^ 63 - 1 then (2 ^ 63 - 1, true)
  else if value < -2 ^ 63 then (-2 ^ 63, true)
  else (value, false)

/-- The comparison with `L"0"` ends at a U+0000. -/
def tryStrToInt64 (str : UnicodeString) : Bool × Int :=
  if str = [] then (false, 0)
  else
    let (value, outOfRange) := wtoi64 str
    (!outOfRange && (value != 0 || str.takeWhile (· != 0) == wstr "0"), value)

/-- `StrToInt64`, which gives 0 for what is no number. -/
def strToInt64 (value : UnicodeString) : Int :=
  if (tryStrToInt64 value).1 then (tryStrToInt64 value).2 else 0

def toInt32 (value : Int) : Int := value.bmod (2 ^ 32)

def strToIntDef (str : UnicodeString) (defVal : Int) : Int :=
  let (found, value) := tryStrToInt64 str
  if found then toInt32 value else defVal

/-! ## A number that was written is read back -/

theorem isDigit_iff {ch : WChar} : isDigit ch = true ↔ 48 ≤ ch.toNat ∧ ch.toNat ≤ 57 := by
  simp [isDigit, UInt16.le_iff_toNat_le]

theorem isSpace_of_isDigit {ch : WChar} (h : isDigit ch = true) : isSpace ch = false := by
  rw [isDigit_iff] at h
  simp only [isSpace, Bool.or_eq_false_iff, Bool.and_eq_false_iff, decide_eq_false_iff_not,
    UInt16.le_iff_toNat_le, beq_eq_false_iff_ne, ne_eq, ← UInt16.toNat_inj, UInt16.reduceToNat]
  omega

/-- The digits of a number in the source's code units. -/
theorem intToStr_eq (n : Nat) :
    intToStr n = (Nat.toDigits 10 n).map fun c => c.toNat.toUInt16 := by
  simp [intToStr, wstr]

theorem toNat_of_char_isDigit {c : Char} (h : c.isDigit = true) :
    c.toNat.toUInt16.toNat = c.toNat ∧ 48 ≤ c.toNat ∧ c.toNat ≤ 57 := by
  have hc : 48 ≤ c.toNat ∧ c.toNat ≤ 57 := by
    simp only [Char.isDigit, Bool.and_eq_true, decide_eq_true_eq, UInt32.le_iff_toNat_le,
      ge_iff_le] at h
    exact h
  refine ⟨?_, hc⟩
  rw [Nat.toUInt16, UInt16.toNat_ofNat', Nat.mod_eq_of_lt (by omega)]

theorem isDigit_of_mem_intToStr {n : Nat} {ch : WChar} (h : ch ∈ intToStr n) :
    isDigit ch = true := by
  rw [intToStr_eq] at h
  obtain ⟨c, hc, rfl⟩ := mem_map.mp h
  obtain ⟨heq, hlo, hhi⟩ := toNat_of_char_isDigit
    (Nat.isDigit_of_mem_toDigits (by decide) (by decide) hc)
  exact isDigit_iff.mpr (by omega)

theorem intToStr_ne_nil (n : Nat) : intToStr n ≠ [] := by
  rw [intToStr_eq]
  exact fun h => Nat.toDigits_ne_nil (map_eq_nil_iff.mp h)

theorem foldl_intToStr (n : Nat) :
    (intToStr n).foldl (fun n ch => n * 10 + (ch.toNat - 48)) 0 = n := by
  rw [intToStr_eq, foldl_map]
  have hdigits : ∀ c ∈ Nat.toDigits 10 n, c.isDigit = true :=
    fun c hc => Nat.isDigit_of_mem_toDigits (by decide) (by decide) hc
  calc _ = Nat.ofDigitChars 10 (Nat.toDigits 10 n) 0 := by
        rw [Nat.ofDigitChars]
        refine foldl_ext _ _ _ fun a c hc => ?_
        rw [(toNat_of_char_isDigit (hdigits c hc)).1, Nat.mul_comm]
        rfl
    _ = n := Nat.ofDigitChars_toDigits (by decide) (by decide)

theorem wtoi64_intToStr {n : Nat} (h : n < 2 ^ 63) : wtoi64 (intToStr n) = ((n : Int), false) := by
  have hdigits : ∀ ch ∈ intToStr n, isDigit ch = true := fun ch => isDigit_of_mem_intToStr
  have hfold := foldl_intToStr n
  revert hdigits hfold
  generalize intToStr n = str
  intro hdigits hfold
  have hskip : str.dropWhile isSpace = str := by
    cases str with
    | nil => rfl
    | cons ch str => simp [isSpace_of_isDigit (hdigits ch mem_cons_self)]
  have hall : str.takeWhile isDigit = str := takeWhile_eq_self_iff.mpr hdigits
  unfold wtoi64
  rw [hskip]
  dsimp only
  split
  -- a sign would have to be a digit
  · exact absurd (hdigits 45 mem_cons_self) (by decide)
  · exact absurd (hdigits 43 mem_cons_self) (by decide)
  · rw [hall, hfold, if_neg Bool.false_ne_true, if_neg (by omega), if_neg (by omega)]

theorem strToIntDef_intToStr {n : Nat} (h0 : 0 < n) (h : n < 2 ^ 31) (defVal : Int) :
    strToIntDef (intToStr n) defVal = n := by
  have hfound : tryStrToInt64 (intToStr n) = (true, (n : Int)) := by
    rw [tryStrToInt64, if_neg (intToStr_ne_nil n), wtoi64_intToStr (by omega)]
    simp
    omega
  rw [strToIntDef, hfound]
  dsimp only
  rw [if_pos rfl, toInt32, Int.bmod_eq_of_le (by omega) (by omega)]

end NetBox.Base.Text
