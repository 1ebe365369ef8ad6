import NetBox.Ftp.Entry
import NetBox.Base.Number
import NetBox.Calendar.Date
import Mathlib.Order.Bounds.Defs

/-! # The year of an entry that has a time

A line of a Unix listing gives a time instead of the year of a recent file, and
`GuessYearIfUnknown` takes the current year, or the one before when the day would be more than
a day ahead. Days are compared by a number in which every month has 31 days and which knows no
year, so at the end of a shorter month and of the year tomorrow is taken for another day.
-/
namespace NetBox.Ftp
open Base.Text Calendar

/-- The current date. `CTime` begins with the year 1970. -/
structure CTime where
  year : Nat
  month : Nat
  day : Nat
  isDate : IsDate year month day
  recent : 1970 ≤ year

def guessYearIfUnknown (cur : CTime) (date : Date) : Date :=
  if date.year = 0 then
    let now : Int := cur.month * 31 + cur.day
    let file := date.month * 31 + date.day
    { date with year := if now + 1 ≥ file then (cur.year : Int) else cur.year - 1 }
  else date

/-- The character between hours and minutes. -/
def timeDelimiter (token : List Byte) : Option Nat :=
  (token.idxOf? 58).or ((token.idxOf? 46).or (token.idxOf? 45))

/-- What `parseAsUnix` does with a token that holds a time. A token without a delimiter is a
year or a day. -/
def setTime (cur : CTime) (date : Date) (token : List Byte) : Option Date := do
  let pos ← timeDelimiter token
  let hour := toInt32 (strntoi64 (token.take pos))
  let rest := token.drop (pos + 1)
  let date := match rest.idxOf? 58 with
    | none => { date with hour, minute := toInt32 (strntoi64 rest) }
    | some pos =>
      { date with
        hour, minute := toInt32 (strntoi64 (rest.take pos))
        second := toInt32 (strntoi64 (rest.drop (pos + 1))), hasseconds := true }
  pure (guessYearIfUnknown cur { date with hastime := true })

/-- A day that there is in every year. -/
structure InEveryYear (month day : Nat) : Prop where
  month_pos : 1 ≤ month
  month_le : month ≤ 12
  day_pos : 1 ≤ day
  day_le : ∀ year, day ≤ daysInMonth year month

/-- The latest year in which the day is at most one day after the current date. -/
def IsLatestYear (cur : CTime) (month day year : Nat) : Prop :=
  IsGreatest {y | dayNumber y month day ≤ dayNumber cur.year cur.month cur.day + 1} year

/-- The day is tomorrow, in another month, and not the one after a month of 31 days in the same
year. -/
def TomorrowMissed (cur : CTime) (month day : Nat) : Prop :=
  (nextDay cur.year cur.month cur.day).2 = (month, day) ∧ month ≠ cur.month ∧
    (cur.day < 31 ∨ cur.month = 12)

variable {cur : CTime} {month day year : Nat}

theorem CTime.nextDay_bounds (cur : CTime) {y m d : Nat}
    (hnext : nextDay cur.year cur.month cur.day = (y, m, d)) :
    cur.year ≤ y ∧ 1 ≤ m ∧ m ≤ 12 ∧ 1 ≤ d ∧ d ≤ daysInMonth y m := by
  have hdate := cur.isDate
  have hpos := hdate.month_pos
  have hle := hdate.month_le
  unfold nextDay at hnext
  split at hnext
  next hlt =>
    cases hnext
    exact ⟨by omega, hpos, hle, by omega, by omega⟩
  next =>
    split at hnext
    next hlt =>
      cases hnext
      have hdays := daysInMonth_le cur.year (show 1 ≤ cur.month + 1 by omega) (by omega)
      exact ⟨by omega, by omega, by omega, by omega, by omega⟩
    next =>
      cases hnext
      have hdays := daysInMonth_le (cur.year + 1) (Nat.le_refl 1) (by omega)
      exact ⟨by omega, by omega, by omega, by omega, by omega⟩

/-- A day is late enough just when it does not come after tomorrow. -/
theorem dayNumber_le_next (hday : InEveryYear month day) {y m d : Nat} (hyear : 1 ≤ year)
    (hnext : nextDay cur.year cur.month cur.day = (y, m, d)) :
    dayNumber year month day ≤ dayNumber cur.year cur.month cur.day + 1 ↔
      year < y ∨ year = y ∧ (month < m ∨ month = m ∧ day ≤ d) := by
  obtain ⟨hy, hm, hm', hd, hd'⟩ := cur.nextDay_bounds hnext
  have hrecent := cur.recent
  have hnumber := nextDay_dayNumber cur.isDate
  simp only [hnext] at hnumber
  rw [← hnumber]
  constructor
  · intro hle
    by_contra hlater
    have hlt := dayNumber_lt (by omega) hm hm' hd hd' hday.day_pos
      (show y < year ∨ y = year ∧ (m < month ∨ m = month ∧ d < day) by omega)
    exact Nat.not_lt_of_le hle hlt
  · intro hle
    by_cases heq : year = y ∧ month = m ∧ day = d
    · obtain ⟨rfl, rfl, rfl⟩ := heq
      exact Nat.le_refl _
    · exact Nat.le_of_lt (dayNumber_lt hyear hday.month_pos hday.month_le hday.day_pos
        (hday.day_le year) hd (by omega))

theorem isLatestYear_iff (hday : InEveryYear month day) {y m d : Nat}
    (hnext : nextDay cur.year cur.month cur.day = (y, m, d)) :
    IsLatestYear cur month day year ↔
      year = if month < m ∨ month = m ∧ day ≤ d then y else y - 1 := by
  have hy := (cur.nextDay_bounds hnext).1
  have hrecent := cur.recent
  have hiff : ∀ year, 1 ≤ year → _ := fun year hyear => dayNumber_le_next hday hyear hnext
  generalize hlatest : (if month < m ∨ month = m ∧ day ≤ d then y else y - 1) = latest
  have hmem : dayNumber latest month day ≤ dayNumber cur.year cur.month cur.day + 1 := by
    rw [hiff latest (by split at hlatest <;> omega)]
    split at hlatest <;> omega
  have hbound : latest ∈ upperBounds
      {y | dayNumber y month day ≤ dayNumber cur.year cur.month cur.day + 1} := by
    intro year' hyear'
    by_contra hlt
    have hle := (hiff year' (by omega)).mp hyear'
    split at hlatest <;> omega
  constructor
  · intro h
    exact Nat.le_antisymm (hbound h.1) (h.2 hmem)
  · rintro rfl
    exact ⟨hmem, hbound⟩

/-- The year is the right one unless tomorrow is missed. -/
theorem guess_latest_iff (hday : InEveryYear month day) :
    IsLatestYear cur month day
        (if month * 31 + day ≤ cur.month * 31 + cur.day + 1 then cur.year else cur.year - 1) ↔
      ¬ TomorrowMissed cur month day := by
  have hdate := cur.isDate
  have hpos := hdate.day_pos
  have hmonths := hdate.month_le
  have hrecent := cur.recent
  have hle := hdate.day_le
  have hdays := daysInMonth_le cur.year hdate.month_pos hdate.month_le
  have hday' := hday.day_le cur.year
  have hdays' := daysInMonth_le cur.year hday.month_pos hday.month_le
  have hdaypos := hday.day_pos
  have hmonthpos := hday.month_pos
  have hmonthle := hday.month_le
  rw [TomorrowMissed]
  -- tomorrow is in this month, in this year, or in the next one
  by_cases hlast : cur.day < daysInMonth cur.year cur.month
  · have hnext : nextDay cur.year cur.month cur.day = (cur.year, cur.month, cur.day + 1) :=
      if_pos hlast
    rw [isLatestYear_iff hday hnext, hnext]
    simp only [Prod.mk.injEq]
    split <;> split <;> omega
  by_cases hyear : cur.month < 12
  · have hnext : nextDay cur.year cur.month cur.day = (cur.year, cur.month + 1, 1) := by
      rw [nextDay, if_neg hlast, if_pos hyear]
    have hsame : month = cur.month → day ≤ cur.day := by
      rintro rfl
      omega
    rw [isLatestYear_iff hday hnext, hnext]
    simp only [Prod.mk.injEq]
    split <;> split <;> omega
  · have hnext : nextDay cur.year cur.month cur.day = (cur.year + 1, 1, 1) := by
      rw [nextDay, if_neg hlast, if_neg hyear]
    have htwelve : daysInMonth cur.year cur.month = 31 := by
      rw [show cur.month = 12 by omega, daysInMonth]
      cases isLeapYear cur.year <;> rfl
    rw [isLatestYear_iff hday hnext, hnext]
    simp only [Prod.mk.injEq]
    split <;> split <;> omega

theorem guessYearIfUnknown_year {date : Date} (hyear : date.year = 0) (hmonth : date.month = month)
    (hday : date.day = day) :
    (guessYearIfUnknown cur date).year =
      (if month * 31 + day ≤ cur.month * 31 + cur.day + 1 then cur.year
        else cur.year - 1 : Nat) := by
  have hrecent := cur.recent
  simp only [guessYearIfUnknown, if_pos hyear, hmonth, hday]
  split <;> split <;> omega

/-- A token with a delimiter is a time, and then the year is guessed. -/
theorem setTime_year {date : Date} {token : List Byte} (htime : (timeDelimiter token).isSome = true)
    (hyear : date.year = 0) (hmonth : date.month = month) (hday : date.day = day) :
    (setTime cur date token).map (·.year) = some ↑(if month * 31 + day ≤ cur.month * 31 + cur.day + 1
      then cur.year else cur.year - 1) := by
  obtain ⟨pos, hpos⟩ := Option.isSome_iff_exists.mp htime
  simp only [setTime, hpos, bind, Option.bind_some, pure, Option.map_some, Option.some.injEq]
  split <;> exact guessYearIfUnknown_year hyear hmonth hday

/-- The guessed year is the latest one that puts the entry at most one day after the current
date, unless the entry is of tomorrow and tomorrow begins a year or follows a month of less than
31 days. -/
theorem setTime_latestYear_iff {date : Date} {token : List Byte} (hdate : InEveryYear month day)
    (htime : (timeDelimiter token).isSome = true) (hyear : date.year = 0)
    (hmonth : date.month = month) (hday : date.day = day) :
    (∃ year : Nat, (setTime cur date token).map (·.year) = some (year : Int) ∧
        IsLatestYear cur month day year) ↔ ¬ TomorrowMissed cur month day := by
  rw [← guess_latest_iff hdate, setTime_year htime hyear hmonth hday]
  constructor
  · rintro ⟨year, hsome, hlatest⟩
    rw [Option.some.injEq, Int.natCast_inj] at hsome
    rw [hsome]
    exact hlatest
  · intro hlatest
    exact ⟨_, rfl, hlatest⟩

def april30 : CTime where
  year := 2024
  month := 4
  day := 30
  isDate := ⟨by decide, by decide, by decide, by decide, by decide, by decide⟩
  recent := by decide

theorem april30_today :
    (∃ year : Nat, (setTime april30 { month := 4, day := 30 } [49, 50, 58, 48, 48]).map (·.year) =
      some (year : Int) ∧ IsLatestYear april30 4 30 year) ↔ ¬ TomorrowMissed april30 4 30 := by
  refine setTime_latestYear_iff ⟨by decide, by decide, by decide, fun year => ?_⟩ rfl rfl rfl rfl
  rw [daysInMonth]
  cases isLeapYear year <;> decide

/-- A file that was changed on the first of May, seen on the last of April. -/
theorem may_first_year_ago :
    ¬ ∃ year : Nat, (setTime april30 { month := 5, day := 1 } [49, 50, 58, 48, 48]).map (·.year) =
      some (year : Int) ∧ IsLatestYear april30 5 1 year := by
  rintro ⟨year, hsome, hlatest⟩
  have hyear : (2023 : Int) = year := Option.some.inj hsome
  have hle : 2024 ≤ year := by
    have hnumber := nextDay_dayNumber april30.isDate
    rw [show nextDay april30.year april30.month april30.day = (2024, 5, 1) from rfl] at hnumber
    exact hlatest.2 (Nat.le_of_eq hnumber)
  omega

end NetBox.Ftp
