import Mathlib.Algebra.Group.Int.Defs
import Mathlib.Algebra.Group.Nat.Defs
import NetBox.Lib.Blocks

/-! # Dates and day numbers

`DecodeDateFully` and `TryEncodeDate` of Sysutils.cpp, for whole days. A date is the
number of its day, counted from December 30, 1899; `dateDelta` is the number of that
day counted from January 1 of the year 1, which is day 1.
-/
namespace NetBox.Calendar
open Lib

def dateDelta : Int := 693594

def isLeapYear (year : Nat) : Bool := year % 4 == 0 && (year % 100 != 0 || year % 400 == 0)

def monthDays (leap : Bool) : List Nat :=
  if leap then [31, 29, 31, 30, 31, 30, 31, 31, 30, 31, 30, 31]
  else [31, 28, 31, 30, 31, 30, 31, 31, 30, 31, 30, 31]

/-- An entry of the table, which counts from 0. -/
def dayTable (leap : Bool) (index : Nat) : Nat := (monthDays leap).getD index 0

/-- The conversion to 16 bits. -/
def toWord (n : Nat) : Nat := n % 2 ^ 16

def d1 : Nat := 365
def d4 : Nat := d1 * 4 + 1
def d100 : Nat := d4 * 25 - 1
def d400 : Nat := d100 * 4 + 1

/-- The loop over cycles of 400 years. -/
def skipCycles (t y : Nat) : Nat × Nat :=
  if d400 ≤ t then skipCycles (t - d400) (y + 400) else (t, y)
termination_by t
decreasing_by
  have : 0 < d400 := by decide
  omega

/-- Division by the length of a part of which there are four in a cycle, where the last
one has a day more. -/
def divFour (t size : Nat) : Nat × Nat :=
  if t / size = 4 then (3, t % size + size) else (t / size, t % size)

/-- The year, and the days in it before the day. -/
def decodeYear (t : Nat) : Nat × Nat :=
  let (t, y) := skipCycles t 1
  let (i, d) := divFour t d100
  let y := y + i * 100
  let (i, d) := (d / d4, d % d4)
  let y := y + i * 4
  let (i, d) := divFour d d1
  (y + i, d)

structure Decoded where
  year : Nat
  month : Nat
  day : Nat
  dow : Nat
  leap : Bool
deriving DecidableEq

/-- `none` is a month behind the end of the table. -/
def decodeDateFully (date : Int) : Option Decoded :=
  let t := (date + dateDelta).toNat
  if t = 0 then some ⟨0, 0, 0, 0, false⟩
  else
    let (y, d) := decodeYear (t - 1)
    let leap := isLeapYear (toWord y)
    (Blocks.locate (dayTable leap) 12 0 d).map fun (m, d) =>
      ⟨toWord y, m + 1, d + 1, t % 7 + 1, leap⟩

def decodeDate (date : Int) : Option (Nat × Nat × Nat) :=
  (decodeDateFully date).map fun decoded => (decoded.year, decoded.month, decoded.day)

def tryEncodeDate (year month day : Nat) : Option Int :=
  let table := dayTable (isLeapYear year)
  if 1 ≤ year ∧ year ≤ 9999 ∧ 1 ≤ month ∧ month ≤ 12 ∧ 1 ≤ day ∧ day ≤ table (month - 1) then
    let day := day + Blocks.start table (month - 1)
    let i := year - 1
    some ((i * 365 + i / 4 - i / 100 + i / 400 + day : Nat) - dateDelta)
  else none

example : tryEncodeDate 1970 1 1 = some 25569 := by decide

/-! ## Years -/

/-- The days of year `i + 1`. -/
def yearDays (i : Nat) : Nat := if isLeapYear (i + 1) then 366 else 365

theorem start_yearDays (i : Nat) :
    Blocks.start yearDays i = i * 365 + i / 4 - i / 100 + i / 400 := by
  induction i with
  | zero => rfl
  | succ i ih =>
    rw [Blocks.start, ih, yearDays]
    simp only [isLeapYear, Bool.and_eq_true, Bool.or_eq_true, beq_iff_eq, bne_iff_ne]
    split <;> omega

theorem d4_eq : d4 = 1461 := rfl

theorem d100_eq : d100 = 36524 := rfl

theorem d400_eq : d400 = 146097 := rfl

theorem skipCycles_eq (t y : Nat) : skipCycles t y = (t % d400, y + t / d400 * 400) := by
  fun_induction skipCycles t y with
  | case1 t y h ih =>
    rw [ih]
    simp only [d400_eq, Prod.mk.injEq] at h ⊢
    omega
  | case2 t y h =>
    simp only [d400_eq, Prod.mk.injEq] at h ⊢
    omega

/-- The quotient is at most 3, and only the last part may have a day more. -/
theorem divFour_spec (t size : Nat) (hsize : 0 < size) (h : t ≤ 4 * size) :
    t = size * (divFour t size).1 + (divFour t size).2 ∧ (divFour t size).1 ≤ 3 ∧
      ((divFour t size).2 < size ∨ (divFour t size).1 = 3 ∧ (divFour t size).2 = size ∧
        t = 4 * size) := by
  have hmod := Nat.mod_lt t hsize
  have hdiv := Nat.div_add_mod t size
  unfold divFour
  split
  next hfour =>
    rw [hfour] at hdiv
    have hzero : t % size = 0 := by omega
    rw [hzero]
    exact ⟨by omega, Nat.le_refl _, .inr ⟨rfl, by omega, by omega⟩⟩
  next hfour =>
    have hle : t / size ≤ 4 := Nat.div_le_of_le_mul (by omega)
    exact ⟨hdiv.symm, by omega, .inl hmod⟩

/-! The years of a cycle, by century, place in it and year of four. -/

section
variable {a b c e : Nat} (hb : b ≤ 3) (hc : c ≤ 24) (he : e ≤ 3)
include hb hc he

theorem start_cycle : Blocks.start yearDays (a * 400 + b * 100 + c * 4 + e) =
    d400 * a + d100 * b + d4 * c + d1 * e := by
  have hfour : (a * 400 + b * 100 + c * 4 + e) / 4 = a * 100 + b * 25 + c := by omega
  have hcentury : (a * 400 + b * 100 + c * 4 + e) / 100 = a * 4 + b := by omega
  have hcycle : (a * 400 + b * 100 + c * 4 + e) / 400 = a := by omega
  rw [start_yearDays, hfour, hcentury, hcycle, d400_eq, d100_eq, d4_eq, d1]
  omega

/-- The fourth year of four is a leap year, but for the last one of the first three
centuries. -/
theorem yearDays_cycle : yearDays (a * 400 + b * 100 + c * 4 + e) =
    if e = 3 ∧ (c = 24 → b = 3) then 366 else 365 := by
  have hleap : isLeapYear (a * 400 + b * 100 + c * 4 + e + 1) = true ↔
      e = 3 ∧ (c = 24 → b = 3) := by
    simp only [isLeapYear, Bool.and_eq_true, Bool.or_eq_true, beq_iff_eq, bne_iff_ne]
    omega
  simp only [yearDays, hleap]

end

/-- The year is the one in which the day lies. -/
theorem decodeYear_spec (t : Nat) : ∃ i d, decodeYear t = (i + 1, d) ∧
    t = Blocks.start yearDays i + d ∧ d < yearDays i := by
  obtain ⟨hcentury, hb, hbound⟩ := divFour_spec (t % d400) d100 (by decide) (by
    rw [d400_eq, d100_eq]
    omega)
  have hyear : decodeYear t = (t / d400 * 400 + (divFour (t % d400) d100).1 * 100 +
      (divFour (t % d400) d100).2 / d4 * 4 +
      (divFour ((divFour (t % d400) d100).2 % d4) d1).1 + 1,
      (divFour ((divFour (t % d400) d100).2 % d4) d1).2) := by
    simp only [decodeYear, skipCycles_eq, Prod.mk.injEq, and_true]
    omega
  generalize divFour (t % d400) d100 = century at *
  obtain ⟨b, s⟩ := century
  obtain ⟨hquarter, he, hday⟩ := divFour_spec (s % d4) d1 (by decide) (by
    rw [d4_eq, d1]
    omega)
  generalize divFour (s % d4) d1 = quarter at *
  obtain ⟨e, u⟩ := quarter
  have hs : s ≤ 36524 := by
    rw [d100_eq] at hbound
    omega
  have hc : s / d4 ≤ 24 := by
    rw [d4_eq]
    omega
  have hdiv := Nat.div_add_mod t d400
  have hdivFour := Nat.div_add_mod s d4
  dsimp only at hcentury hb hbound hquarter he hday
  refine ⟨_, u, hyear, ?_, ?_⟩
  · rw [start_cycle hb hc he]
    omega
  · rw [yearDays_cycle hb hc he]
    rw [d100_eq] at hbound
    simp only [d4_eq, d1] at hdivFour hquarter hday
    split
    next => omega
    next hlast =>
      rw [d4_eq] at hlast
      omega

/-! ## Dates -/

/-- The days of a month. -/
def daysInMonth (year month : Nat) : Nat := dayTable (isLeapYear year) (month - 1)

structure IsDate (year month day : Nat) : Prop where
  year_pos : 1 ≤ year
  year_le : year ≤ 9999
  month_pos : 1 ≤ month
  month_le : month ≤ 12
  day_pos : 1 ≤ day
  day_le : day ≤ daysInMonth year month

/-- The number of a day, counted from the beginning of the year 1. -/
def dayNumber (year month day : Nat) : Nat :=
  Blocks.start yearDays (year - 1) + Blocks.start (dayTable (isLeapYear year)) (month - 1) + day

/-- The next day in the calendar. -/
def nextDay (year month day : Nat) : Nat × Nat × Nat :=
  if day < daysInMonth year month then (year, month, day + 1)
  else if month < 12 then (year, month + 1, 1)
  else (year + 1, 1, 1)

variable {year month day : Nat}

theorem daysInMonth_le (year : Nat) (hmonth : 1 ≤ month) (h : month ≤ 12) :
    28 ≤ daysInMonth year month ∧ daysInMonth year month ≤ 31 := by
  have hall : ∀ leap, ∀ i < 12, 28 ≤ dayTable leap i ∧ dayTable leap i ≤ 31 := by decide
  exact hall (isLeapYear year) (month - 1) (by omega)

/-- All months make up the year. -/
theorem start_months (i : Nat) :
    Blocks.start (dayTable (isLeapYear (i + 1))) 12 = yearDays i := by
  rw [yearDays]
  cases isLeapYear (i + 1) <;> rfl

theorem tryEncodeDate_some (h : IsDate year month day) :
    tryEncodeDate year month day = some (dayNumber year month day - dateDelta) := by
  have hvalid : 1 ≤ year ∧ year ≤ 9999 ∧ 1 ≤ month ∧ month ≤ 12 ∧ 1 ≤ day ∧
      day ≤ dayTable (isLeapYear year) (month - 1) :=
    ⟨h.year_pos, h.year_le, h.month_pos, h.month_le, h.day_pos, h.day_le⟩
  simp only [tryEncodeDate, if_pos hvalid, dayNumber, start_yearDays, Option.some.injEq]
  omega

theorem isDate_of_tryEncodeDate {date : Int} (h : tryEncodeDate year month day = some date) :
    IsDate year month day := by
  simp only [tryEncodeDate] at h
  split at h
  next hvalid =>
    obtain ⟨h1, h2, h3, h4, h5, h6⟩ := hvalid
    exact ⟨h1, h2, h3, h4, h5, h6⟩
  next => cases h

theorem dayNumber_last : dayNumber 9999 12 31 = Blocks.start yearDays 9999 := by
  rw [dayNumber, start_yearDays, start_yearDays]
  decide

/-- A day number up to that of December 31, 9999 is decoded to the date it is the number
of. -/
theorem decodeDate_spec {t : Nat} (hpos : 1 ≤ t) (hle : t ≤ dayNumber 9999 12 31) :
    ∃ year month day, decodeDate (t - dateDelta) = some (year, month, day) ∧
      IsDate year month day ∧ dayNumber year month day = t := by
  obtain ⟨i, d, hyear, ht, hd⟩ := decodeYear_spec (t - 1)
  have hi : i < 9999 := by
    by_contra hge
    have hmono : Blocks.start yearDays 9999 ≤ Blocks.start yearDays i :=
      Blocks.start_mono (Nat.le_of_not_lt hge)
    rw [dayNumber_last] at hle
    omega
  have hword : toWord (i + 1) = i + 1 := Nat.mod_eq_of_lt (by omega)
  have hplace : Blocks.start (dayTable (isLeapYear (i + 1))) 0 + d <
      Blocks.start (dayTable (isLeapYear (i + 1))) (0 + 12) := by
    rw [Nat.zero_add, start_months, Blocks.start, Nat.zero_add]
    exact hd
  obtain ⟨m, e, hmonth⟩ := Blocks.exists_locate hplace
  obtain ⟨hstart, he, -, hm⟩ := Blocks.locate_spec hmonth
  rw [Blocks.start, Nat.zero_add] at hstart
  refine ⟨i + 1, m + 1, e + 1, ?_, ⟨by omega, by omega, by omega, by omega, by omega, he⟩, ?_⟩
  · have hnat : ((t : Int) - dateDelta + dateDelta).toNat = t := by omega
    rw [decodeDate, decodeDateFully, hnat, if_neg (by omega), hyear]
    simp only [hword, hmonth, Option.map_some]
  · simp only [dayNumber, Nat.add_sub_cancel]
    omega

/-- The place of a day in its year. -/
theorem place_lt (hyear : 1 ≤ year) (hmonth : month ≤ 12) (hmonth' : 1 ≤ month) (hpos : 1 ≤ day)
    (hday : day ≤ daysInMonth year month) :
    Blocks.start (dayTable (isLeapYear year)) (month - 1) + (day - 1) < yearDays (year - 1) := by
  rw [← start_months, Nat.sub_add_cancel hyear]
  refine Blocks.start_add_lt (by omega) ?_
  rw [daysInMonth] at hday
  omega

theorem IsDate.place_lt (h : IsDate year month day) :
    Blocks.start (dayTable (isLeapYear year)) (month - 1) + (day - 1) < yearDays (year - 1) :=
  Calendar.place_lt h.year_pos h.month_le h.month_pos h.day_pos h.day_le

/-- A day that comes before another one has a smaller number. -/
theorem dayNumber_lt {year' month' day' : Nat} (hyear : 1 ≤ year) (hmonth : 1 ≤ month)
    (hle : month ≤ 12) (hpos : 1 ≤ day) (hday : day ≤ daysInMonth year month) (hpos' : 1 ≤ day')
    (h : year < year' ∨ year = year' ∧ (month < month' ∨ month = month' ∧ day < day')) :
    dayNumber year month day < dayNumber year' month' day' := by
  have hplace := place_lt hyear hle hmonth hpos hday
  rcases h with hlt | ⟨rfl, hlt | ⟨rfl, hlt⟩⟩
  · have hyears := Blocks.start_add_lt (show year - 1 < year' - 1 by omega) hplace
    simp only [dayNumber]
    omega
  · rw [daysInMonth] at hday
    have hmonths := Blocks.start_add_lt (show month - 1 < month' - 1 by omega)
      (show day - 1 < dayTable (isLeapYear year) (month - 1) by omega)
    simp only [dayNumber]
    omega
  · exact Nat.add_lt_add_left hlt _

/-- A date is told by its day number. -/
theorem dayNumber_inj {year' month' day' : Nat} (h : IsDate year month day)
    (h' : IsDate year' month' day') (heq : dayNumber year month day = dayNumber year' month' day') :
    year = year' ∧ month = month' ∧ day = day' := by
  have hday := h.day_pos
  have hday' := h'.day_pos
  have hle := h.day_le
  have hle' := h'.day_le
  obtain ⟨hyear, hplace⟩ := Blocks.place_unique (by
    simp only [dayNumber] at heq
    omega) h.place_lt h'.place_lt
  have hyears : year = year' := by
    have := h.year_pos
    have := h'.year_pos
    omega
  subst hyears
  rw [daysInMonth] at hle hle'
  obtain ⟨hmonth, hdays⟩ := Blocks.place_unique hplace (by omega) (by omega)
  have := h.month_pos
  have := h'.month_pos
  exact ⟨rfl, by omega, by omega⟩

theorem dayNumber_pos (h : IsDate year month day) : 1 ≤ dayNumber year month day := by
  have := h.day_pos
  rw [dayNumber]
  omega

theorem dayNumber_le (h : IsDate year month day) :
    dayNumber year month day ≤ dayNumber 9999 12 31 := by
  have hplace := h.place_lt
  have hday := h.day_pos
  have hyear : year - 1 < 9999 := by
    have := h.year_le
    have := h.year_pos
    omega
  have hlt := Blocks.start_add_lt hyear hplace
  rw [dayNumber_last, dayNumber]
  omega

theorem decodeDate_encoded (h : IsDate year month day) :
    decodeDate (dayNumber year month day - dateDelta) = some (year, month, day) := by
  obtain ⟨year', month', day', hdecode, h', hnumber⟩ :=
    decodeDate_spec (dayNumber_pos h) (dayNumber_le h)
  obtain ⟨rfl, rfl, rfl⟩ := dayNumber_inj h' h hnumber
  exact hdecode

theorem nextDay_dayNumber (h : IsDate year month day) :
    dayNumber (nextDay year month day).1 (nextDay year month day).2.1
      (nextDay year month day).2.2 = dayNumber year month day + 1 := by
  have hle := h.day_le
  have hmonth := Nat.sub_add_cancel h.month_pos
  have hyear := Nat.sub_add_cancel h.year_pos
  unfold nextDay
  split
  next hday => rfl
  next hday =>
    -- the month is over, and with its last day the next one begins
    have hnext : Blocks.start (dayTable (isLeapYear year)) month =
        Blocks.start (dayTable (isLeapYear year)) (month - 1) + day := by
      rw [← hmonth, Blocks.start, hmonth]
      rw [daysInMonth] at hday hle
      omega
    split
    next hlt =>
      simp only [dayNumber, Nat.add_sub_cancel, hnext]
      omega
    next hlt =>
      have htwelve : month = 12 := Nat.le_antisymm h.month_le (Nat.le_of_not_lt hlt)
      have hwhole : Blocks.start yearDays year =
          Blocks.start yearDays (year - 1) + yearDays (year - 1) := by
        rw [← hyear, Blocks.start, hyear]
      have hmonths := start_months (year - 1)
      rw [hyear, ← htwelve, hnext] at hmonths
      simp only [dayNumber, Nat.add_sub_cancel, hwhole, Nat.sub_self, Blocks.start]
      omega

/-- Encoding and decoding are inverse to each other between January 1 of the year 1 and
December 31, 9999, and the next day has the next number. -/
theorem calendar_inverse :
    (∀ year month day, IsDate year month day → ∃ date, tryEncodeDate year month day = some date ∧
      decodeDate date = some (year, month, day)) ∧
    (∀ first last date, tryEncodeDate 1 1 1 = some first → tryEncodeDate 9999 12 31 = some last →
      first ≤ date → date ≤ last → ∃ year month day, decodeDate date = some (year, month, day) ∧
        IsDate year month day ∧ tryEncodeDate year month day = some date) ∧
    ∀ year month day, IsDate year month day →
      IsDate (nextDay year month day).1 (nextDay year month day).2.1
        (nextDay year month day).2.2 →
      tryEncodeDate (nextDay year month day).1 (nextDay year month day).2.1
        (nextDay year month day).2.2 = (tryEncodeDate year month day).map (· + 1) := by
  refine ⟨fun year month day h => ?_, fun first last date hfirst hlast hge hle => ?_,
    fun year month day h hnext => ?_⟩
  · exact ⟨_, tryEncodeDate_some h, decodeDate_encoded h⟩
  · rw [tryEncodeDate_some (isDate_of_tryEncodeDate hfirst), Option.some.injEq] at hfirst
    rw [tryEncodeDate_some (isDate_of_tryEncodeDate hlast), Option.some.injEq] at hlast
    have hone : dayNumber 1 1 1 = 1 := by decide
    obtain ⟨t, ht⟩ : ∃ t : Nat, date = t - dateDelta := ⟨(date + dateDelta).toNat, by omega⟩
    obtain ⟨year, month, day, hdecode, h, hnumber⟩ :=
      decodeDate_spec (t := t) (by omega) (by omega)
    refine ⟨year, month, day, ht ▸ hdecode, h, ?_⟩
    rw [tryEncodeDate_some h, hnumber, ht]
  · rw [tryEncodeDate_some hnext, tryEncodeDate_some h, nextDay_dayNumber h, Option.map_some,
      Option.some.injEq]
    omega

end NetBox.Calendar
