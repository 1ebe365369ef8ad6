import NetBox.Base.Text
import NetBox.Ftp.Listing
import Mathlib.Algebra.Group.Nat.Defs
import Mathlib.Algebra.Group.Int.Defs
import Mathlib.Logic.Function.Iterate

/-! # Entries of a directory listing and their size

The entry that the line parsers fill in, the numbers they read, and `ParseSize`, which reads
a size with a unit. The digits of the size are read without the point, and then the size is
divided by ten once for each place behind the point, and once more.
-/
namespace NetBox.Ftp
open Base.Text List

/-- `t_direntry::t_date` -/
structure Date where
  year : Int := 0
  month : Int := 0
  day : Int := 0
  hour : Int := 0
  minute : Int := 0
  second : Int := 0
  hastime : Bool := false
  hasyear : Bool := false
  hasseconds : Bool := false
  hasdate : Bool := false
  utc : Bool := false
deriving DecidableEq, Repr

/-- `t_directory::t_direntry`, as its constructor leaves it. -/
structure DirEntry where
  unsure : Bool := true
  name : UnicodeString := []
  permissionstr : UnicodeString := []
  humanpermstr : UnicodeString := []
  ownergroup : UnicodeString := []
  owner : UnicodeString := []
  group : UnicodeString := []
  size : Int := 0
  dir : Bool := false
  link : Bool := false
  date : Date := {}
  linkTarget : UnicodeString := []
deriving DecidableEq, Repr

/-- The conversion to wide characters, which depends on the system. -/
structure CodePage where
  convert : List Byte → UnicodeString
  ascii : ∀ bytes : List Byte, (∀ c ∈ bytes, c < 128) → convert bytes = bytes.map (·.toUInt16)

def latin1 : CodePage := ⟨List.map (·.toUInt16), fun _ _ => rfl⟩

/-! ## Numbers -/

/-- What 64 bits hold of a number. -/
def int64 (n : Int) : Int := n.bmod (2 ^ 64)

def isDigitByte (c : Byte) : Bool := 48 ≤ c && c ≤ 57

/-- One more digit of a number. -/
def accumulate (size : Int) (c : Byte) : Int := int64 (int64 (size * 10) + (c.toNat - 48 : Int))

def strntoi64 (str : List Byte) : Int := (str.takeWhile isDigitByte).foldl accumulate 0

/-- `IsNumeric` of a token, which holds no null character. -/
def isNumeric (str : List Byte) : Bool := !str.isEmpty && str.all isDigitByte

/-- The number that digits stand for. -/
def decimal (digits : List Byte) : Nat := digits.foldl (fun n c => n * 10 + (c.toNat - 48)) 0

theorem int64_of_lt {n : Nat} (h : n < 2 ^ 63) : int64 n = n :=
  Int.bmod_eq_of_le (by omega) (by omega)

theorem foldl_accumulate {digits : List Byte} (h : ∀ c ∈ digits, isDigitByte c = true) (n : Nat) :
    digits.foldl accumulate (int64 n) =
      int64 (digits.foldl (fun n c => n * 10 + (c.toNat - 48)) n : Nat) := by
  induction digits generalizing n with
  | nil => rw [foldl_nil, foldl_nil]
  | cons c digits ih =>
    obtain ⟨hc, hdigits⟩ := forall_mem_cons.mp h
    have hstep : accumulate (int64 n) c = int64 (n * 10 + (c.toNat - 48) : Nat) := by
      have h48 : 48 ≤ c.toNat := by
        simp only [isDigitByte, Bool.and_eq_true, decide_eq_true_eq, UInt8.le_iff_toNat_le] at hc
        exact hc.1
      simp only [accumulate, int64, Int.bmod_mul_bmod, Int.bmod_add_bmod]
      rw [Int.natCast_add, Int.natCast_mul, Int.natCast_sub h48]
      rfl
    rw [foldl_cons, foldl_cons, hstep, ih hdigits]

theorem foldl_accumulate_zero {digits : List Byte} (h : ∀ c ∈ digits, isDigitByte c = true) :
    digits.foldl accumulate 0 = int64 (decimal digits) := by
  have hzero : int64 (0 : Nat) = 0 := int64_of_lt (by decide)
  rw [← hzero, foldl_accumulate h 0, decimal]

/-! ## Sizes -/

/-- The loop of `ParseSize`, with the delimiter counted from the end of the number. -/
def sizeLoop : Int → Int → List Byte → Option (Int × Int)
  | size, delimiter, [] => some (size, delimiter)
  | size, delimiter, c :: rest =>
    if isDigitByte c then sizeLoop (accumulate size c) delimiter rest
    else if c = 46 then sizeLoop size (c :: rest).length rest
    else none

/-- The power of two that a unit stands for. -/
def unitShift (c : Byte) : Option Nat :=
  if c = 107 ∨ c = 75 then some 10
  else if c = 109 ∨ c = 77 then some 20
  else if c = 103 ∨ c = 71 then some 30
  else if c = 116 ∨ c = 84 then some 40
  else none

def divideTens (delimiter : Nat) (size : Int) : Int := (·.tdiv 10)^[delimiter] size

/-- The part of `ParseSize` for a number with a unit. -/
def parseUnit (number : List Byte) (last : Byte) : Option Int := do
  let (size, delimiter) ← sizeLoop 0 (-1) number
  if delimiter = 0 ∨ delimiter = number.length then none
  else
    let shift ← unitShift last
    let size := int64 (size * 2 ^ shift)
    if delimiter = -1 then some size else some (divideTens delimiter.toNat size)

def parseSize (str : List Byte) : Option Int :=
  if isNumeric str then some (strntoi64 str)
  else str.getLast?.bind (parseUnit str.dropLast)

/-- A decimal number with a unit: its digits, the places behind the point and the power of two
that the unit stands for. -/
inductive IsSize : List Byte → List Byte → Nat → Nat → Prop
  | whole {digits : List Byte} {unit : Byte} {shift : Nat} (hne : digits ≠ [])
      (hdigits : ∀ c ∈ digits, isDigitByte c = true) (hunit : unitShift unit = some shift) :
      IsSize (digits ++ [unit]) digits 0 shift
  | point {whole places : List Byte} {unit : Byte} {shift : Nat} (hwhole : whole ≠ [])
      (hplaces : places ≠ []) (hdigits : ∀ c ∈ whole ++ places, isDigitByte c = true)
      (hunit : unitShift unit = some shift) :
      IsSize (whole ++ 46 :: places ++ [unit]) (whole ++ places) places.length shift

/-- A number that is accepted and is none: there is nothing before the unit, there is nothing
between the last point and the unit, or there are several points. -/
inductive Sloppy : List Byte → Prop
  | empty : Sloppy []
  | points {front back : List Byte} (hfront : front ≠ [])
      (hchars : ∀ c ∈ front, isDigitByte c = true ∨ c = 46)
      (hdigits : ∀ c ∈ back, isDigitByte c = true) (hsloppy : back = [] ∨ 46 ∈ front) :
      Sloppy (front ++ 46 :: back)

/-- What is asked of `ParseSize`. -/
def SizeRight (token : List Byte) : Prop :=
  (∀ digits places shift, IsSize token digits places shift → decimal digits * 2 ^ shift < 2 ^ 63 →
    parseSize token = some ((decimal digits * 2 ^ shift / 10 ^ places : Nat) : Int)) ∧
  ((parseSize token).isSome = true →
    (∃ digits places shift, IsSize token digits places shift) ∨
      token ≠ [] ∧ ∀ c ∈ token, isDigitByte c = true)

variable {digits front back number token : List Byte} {last unit : Byte} {places shift : Nat}

theorem isDigitByte_point : isDigitByte 46 = false := rfl

theorem unitShift_digit {c : Byte} (h : isDigitByte c = true) : unitShift c = none := by
  simp only [isDigitByte, Bool.and_eq_true, decide_eq_true_eq, UInt8.le_iff_toNat_le] at h
  have hne : ∀ u : Byte, 58 ≤ u.toNat → c ≠ u := by
    rintro u hu rfl
    have h57 : (57 : Byte).toNat = 57 := rfl
    omega
  simp [unitShift, hne]

theorem divideTens_natCast (n k : Nat) : divideTens k n = (n / 10 ^ k : Nat) := by
  induction k with
  | zero => simp [divideTens]
  | succ k ih =>
    rw [divideTens, Function.iterate_succ_apply', ← divideTens, ih, Nat.pow_succ,
      ← Nat.div_div_eq_div_mul]
    exact (Int.ofNat_tdiv _ 10).symm

theorem sizeLoop_digits (h : ∀ c ∈ digits, isDigitByte c = true) (size delimiter : Int) :
    sizeLoop size delimiter digits = some (digits.foldl accumulate size, delimiter) := by
  induction digits generalizing size with
  | nil => rfl
  | cons c digits ih =>
    obtain ⟨hc, hdigits⟩ := forall_mem_cons.mp h
    rw [sizeLoop, if_pos hc, ih hdigits, foldl_cons]

/-- Only the last point counts. -/
theorem sizeLoop_point (hfront : ∀ c ∈ front, isDigitByte c = true ∨ c = 46)
    (hback : ∀ c ∈ back, isDigitByte c = true) (size delimiter : Int) :
    sizeLoop size delimiter (front ++ 46 :: back) =
      some ((front.filter isDigitByte ++ back).foldl accumulate size, (back.length : Int) + 1) := by
  induction front generalizing size delimiter with
  | nil =>
    rw [nil_append, sizeLoop, if_neg (by decide), if_pos rfl, sizeLoop_digits hback]
    rfl
  | cons c front ih =>
    obtain ⟨hc, hfront⟩ := forall_mem_cons.mp hfront
    rw [cons_append, sizeLoop]
    by_cases hdigit : isDigitByte c = true
    · rw [if_pos hdigit, ih hfront, filter_cons_of_pos hdigit]
      rfl
    · rw [if_neg hdigit, if_pos (hc.resolve_left hdigit), ih hfront, filter_cons_of_neg hdigit]

/-- A number has another character in it, or is made of digits, or has a last point. -/
theorem number_cases (number : List Byte) :
    (∀ size delimiter, sizeLoop size delimiter number = none) ∨
    (∀ c ∈ number, isDigitByte c = true) ∨
    ∃ front back, number = front ++ 46 :: back ∧ (∀ c ∈ front, isDigitByte c = true ∨ c = 46) ∧
      ∀ c ∈ back, isDigitByte c = true := by
  induction number with
  | nil => exact .inr (.inl (by simp))
  | cons c number ih =>
    by_cases hc : isDigitByte c = true ∨ c = 46
    · rcases ih with hnone | hdigits | ⟨front, back, rfl, hfront, hback⟩
      · left
        intro size delimiter
        rw [sizeLoop, hnone, hnone, ite_self, ite_self]
      · right
        rcases hc with hc | rfl
        · exact .inl (forall_mem_cons.mpr ⟨hc, hdigits⟩)
        · exact .inr ⟨[], number, rfl, by simp, hdigits⟩
      · exact .inr (.inr ⟨c :: front, back, rfl, forall_mem_cons.mpr ⟨hc, hfront⟩, hback⟩)
    · left
      intro size delimiter
      obtain ⟨hdigit, hpoint⟩ := not_or.mp hc
      rw [sizeLoop, if_neg hdigit, if_neg hpoint]

theorem parseUnit_digits (h : ∀ c ∈ digits, isDigitByte c = true) (last : Byte) :
    parseUnit digits last =
      (unitShift last).map fun shift => int64 (decimal digits * 2 ^ shift) := by
  have hlength : ¬ ((-1 : Int) = 0 ∨ (-1 : Int) = digits.length) := by omega
  simp only [parseUnit, sizeLoop_digits h, bind, Option.bind_some, if_neg hlength, if_true,
    foldl_accumulate_zero h, int64, Int.bmod_mul_bmod]
  rw [Option.map_eq_bind]
  rfl

/-- The number is divided once more than it has places. -/
theorem parseUnit_point (hne : front ≠ []) (hfront : ∀ c ∈ front, isDigitByte c = true ∨ c = 46)
    (hback : ∀ c ∈ back, isDigitByte c = true) (last : Byte) :
    parseUnit (front ++ 46 :: back) last = (unitShift last).map fun shift =>
      divideTens (back.length + 1)
        (int64 (decimal (front.filter isDigitByte ++ back) * 2 ^ shift)) := by
  have hdigits : ∀ c ∈ front.filter isDigitByte ++ back, isDigitByte c = true := by
    intro c hc
    rcases mem_append.mp hc with hc | hc
    · exact (mem_filter.mp hc).2
    · exact hback c hc
  have hpos := length_pos_of_ne_nil hne
  have hlength : ¬ ((back.length + 1 : Int) = 0 ∨
      (back.length + 1 : Int) = (front ++ 46 :: back).length) := by
    rw [length_append, length_cons]
    omega
  have hsome : (back.length + 1 : Int) ≠ -1 := by omega
  simp only [parseUnit, sizeLoop_point hfront hback, bind, Option.bind_some, if_neg hlength,
    if_neg hsome, foldl_accumulate_zero hdigits, int64, Int.bmod_mul_bmod]
  rw [Option.map_eq_bind]
  rfl

theorem parseUnit_leading (hback : ∀ c ∈ back, isDigitByte c = true) (last : Byte) :
    parseUnit (46 :: back) last = none := by
  have hnil : ∀ c ∈ ([] : List Byte), isDigitByte c = true ∨ c = 46 := by simp
  have hloop := sizeLoop_point hnil hback 0 (-1)
  rw [nil_append] at hloop
  simp only [parseUnit, hloop, bind, Option.bind_some, length_cons, Int.natCast_add,
    Int.natCast_one, or_true, if_true]

theorem parseSize_unit (hunit : unitShift last = some shift) :
    parseSize (number ++ [last]) = parseUnit number last := by
  have hnot : isNumeric (number ++ [last]) = false := by
    rw [isNumeric, Bool.and_eq_false_iff]
    right
    rw [all_append, Bool.and_eq_false_iff]
    right
    by_contra hdigit
    rw [unitShift_digit (by simpa using hdigit)] at hunit
    cases hunit
  rw [parseSize, hnot, getLast?_concat, dropLast_concat]
  rfl

theorem int64_fits {n : Nat} (h : n * 2 ^ shift < 2 ^ 63) :
    int64 ((n : Int) * 2 ^ shift) = (n * 2 ^ shift : Nat) := by
  rw [← int64_of_lt h]
  push_cast
  rfl

theorem parseSize_isSize (h : IsSize token digits places shift)
    (hfits : decimal digits * 2 ^ shift < 2 ^ 63) :
    parseSize token = some ((decimal digits * 2 ^ shift /
      10 ^ (if places = 0 then 0 else places + 1) : Nat) : Int) := by
  cases h with
  | whole hne hdigits hunit =>
    rw [parseSize_unit hunit, parseUnit_digits hdigits, hunit, Option.map_some, int64_fits hfits,
      if_pos rfl, Nat.pow_zero, Nat.div_one]
  | @point whole back _ _ hwhole hplaces hdigits hunit =>
    obtain ⟨hw, hb⟩ := forall_mem_append.mp hdigits
    rw [parseSize_unit hunit, parseUnit_point hwhole (fun c hc => .inl (hw c hc)) hb, hunit,
      Option.map_some, filter_eq_self.mpr hw, int64_fits hfits, divideTens_natCast,
      if_neg (Nat.ne_of_gt (length_pos_of_ne_nil hplaces))]

/-- What is accepted and is neither a number with a unit nor made of digits. -/
theorem accepted_cases (h : (parseSize token).isSome = true) :
    (token ≠ [] ∧ ∀ c ∈ token, isDigitByte c = true) ∨
    (∃ digits places shift, IsSize token digits places shift) ∨
    ∃ number unit shift, token = number ++ [unit] ∧ unitShift unit = some shift ∧ Sloppy number := by
  by_cases hnumeric : isNumeric token = true
  · simp only [isNumeric, Bool.and_eq_true, Bool.not_eq_true', isEmpty_eq_false_iff,
      all_eq_true] at hnumeric
    exact .inl hnumeric
  right
  rcases eq_nil_or_concat token with rfl | ⟨number, unit, rfl⟩
  · cases h
  rw [concat_eq_append] at h hnumeric ⊢
  rw [parseSize, if_neg hnumeric, getLast?_concat, dropLast_concat, Option.bind_some] at h
  rcases number_cases number with hnone | hdigits | ⟨front, back, rfl, hfront, hback⟩
  · simp [parseUnit, hnone] at h
  · rw [parseUnit_digits hdigits, Option.isSome_map] at h
    obtain ⟨shift, hunit⟩ := Option.isSome_iff_exists.mp h
    by_cases hne : number = []
    · exact .inr ⟨number, unit, shift, rfl, hunit, hne ▸ .empty⟩
    · exact .inl ⟨_, _, _, .whole hne hdigits hunit⟩
  · by_cases hne : front = []
    · rw [hne, nil_append, parseUnit_leading hback] at h
      cases h
    rw [parseUnit_point hne hfront hback, Option.isSome_map] at h
    obtain ⟨shift, hunit⟩ := Option.isSome_iff_exists.mp h
    by_cases hsloppy : back = [] ∨ 46 ∈ front
    · exact .inr ⟨_, unit, shift, rfl, hunit, .points hne hfront hback hsloppy⟩
    · obtain ⟨hplaces, hpoint⟩ := not_or.mp hsloppy
      have hwhole : ∀ c ∈ front, isDigitByte c = true := by
        intro c hc
        exact (hfront c hc).resolve_right fun heq => hpoint (heq ▸ hc)
      exact .inl ⟨_, _, _, .point hne hplaces (forall_mem_append.mpr ⟨hwhole, hback⟩) hunit⟩

theorem Sloppy.accepted (h : Sloppy number) (hunit : unitShift unit = some shift) :
    (parseSize (number ++ [unit])).isSome = true := by
  rw [parseSize_unit hunit]
  cases h with
  | empty => rw [parseUnit_digits (by simp), hunit]; rfl
  | points hne hfront hback _ => rw [parseUnit_point hne hfront hback, hunit]; rfl

theorem point_notMem_digits (h : ∀ c ∈ digits, isDigitByte c = true) : (46 : Byte) ∉ digits :=
  fun hmem => Bool.false_ne_true (isDigitByte_point.symm.trans (h 46 hmem))

theorem Sloppy.not_isSize (h : Sloppy number) : ¬ IsSize (number ++ [unit]) digits places shift := by
  intro hsize
  generalize htoken : number ++ [unit] = token at hsize
  cases hsize with
  | whole hne hdigits _ =>
    obtain ⟨rfl, -⟩ := append_inj' htoken rfl
    cases h with
    | empty => exact hne rfl
    | points => exact point_notMem_digits hdigits (by simp)
  | point hwhole hplaces hdigits _ =>
    obtain ⟨hnumber, -⟩ := append_inj' htoken rfl
    obtain ⟨hw, hp⟩ := forall_mem_append.mp hdigits
    cases h with
    | empty => simp at hnumber
    | points hne hfront hback hsloppy =>
      obtain ⟨rfl, -, rfl⟩ := (append_cons_inj_of_notMem (point_notMem_digits hw)
        (point_notMem_digits hp)).mp hnumber.symm
      exact hsloppy.elim hplaces (point_notMem_digits hw)

/-- A size is read as it is meant just when it has no point or is less than a byte, and what
is accepted is a size unless there are points too many or digits too few. -/
theorem parseSize_right_iff (token : List Byte) :
    SizeRight token ↔
      (∀ digits places shift, IsSize token digits places shift →
        decimal digits * 2 ^ shift < 2 ^ 63 → 0 < places → decimal digits * 2 ^ shift < 10 ^ places) ∧
      ¬ ∃ number unit shift, token = number ++ [unit] ∧ unitShift unit = some shift ∧
        Sloppy number := by
  constructor
  · intro ⟨hvalue, haccepted⟩
    refine ⟨?_, ?_⟩
    · intro digits places shift hsize hfits hpos
      have hread := hvalue digits places shift hsize hfits
      rw [parseSize_isSize hsize hfits, if_neg (Nat.ne_of_gt hpos), Option.some.injEq, Int.natCast_inj,
        Nat.pow_succ, ← Nat.div_div_eq_div_mul] at hread
      rw [← Nat.div_eq_zero_iff_lt (Nat.pow_pos (by decide))]
      generalize decimal digits * 2 ^ shift / 10 ^ places = size at hread ⊢
      omega
    · rintro ⟨number, unit, shift, rfl, hunit, hsloppy⟩
      rcases haccepted (hsloppy.accepted hunit) with ⟨digits, places, shift, hsize⟩ | ⟨-, hdigits⟩
      · exact hsloppy.not_isSize hsize
      · rw [unitShift_digit (hdigits unit (by simp))] at hunit
        cases hunit
  · intro ⟨hsmall, hsloppy⟩
    refine ⟨?_, ?_⟩
    · intro digits places shift hsize hfits
      rw [parseSize_isSize hsize hfits]
      by_cases hpos : 0 < places
      · have hlt := hsmall digits places shift hsize hfits hpos
        have hle : 10 ^ places ≤ 10 ^ (places + 1) := Nat.pow_le_pow_right (by decide) (by omega)
        rw [if_neg (Nat.ne_of_gt hpos), Nat.div_eq_of_lt hlt, Nat.div_eq_of_lt (Nat.lt_of_lt_of_le hlt hle)]
      · rw [if_pos (by omega), Nat.eq_zero_of_not_pos hpos]
    · intro haccepted
      rcases accepted_cases haccepted with hdigits | hsize | hbad
      · exact .inr hdigits
      · exact .inl hsize
      · exact absurd hbad hsloppy

/-- One and a half kilobytes are read as 153 bytes. -/
theorem parseSize_wrong : ¬ SizeRight [49, 46, 53, 75] := by
  intro ⟨hvalue, _⟩
  have hsize : IsSize [49, 46, 53, 75] [49, 53] 1 10 :=
    @IsSize.point [49] [53] 75 10 (by decide) (by decide) (List.all_eq_true.mp rfl) rfl
  exact absurd (hvalue _ _ _ hsize (by decide)) (by decide)

end NetBox.Ftp
