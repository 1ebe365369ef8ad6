import NetBox.Calendar.Date

/-! # Daylight saving time

`EncodeDSTMargin` and `IsDateInDST` of Common.cpp. A time is a number of milliseconds,
counted from the beginning of day 0; the source has the same number as days in a
floating-point value. What the system says about the time zone of a year is taken as
given.
-/
namespace NetBox.Calendar
open Lib

/-- `SYSTEMTIME`, either a moment or, without a year, a rule for one. -/
structure SystemTime where
  wYear : Nat
  wMonth : Nat
  wDayOfWeek : Nat
  wDay : Nat
  wHour : Nat
  wMinute : Nat
  wSecond : Nat
  wMilliseconds : Nat

def mSecsPerDay : Int := 86400000

def tryEncodeTime (hour min sec mSec : Nat) : Option Int :=
  if hour < 24 ∧ min < 60 ∧ sec < 60 ∧ mSec < 1000 then
    some (hour * 3600000 + min * 60000 + sec * 1000 + mSec)
  else none

/-- The month behind, and its year. -/
def nextMonth (month year : Nat) : Nat × Nat :=
  if month + 1 > 12 then (month + 1 - 12, year + 1) else (month + 1, year)

/-- 1 is Sunday. -/
def dayOfWeek (date : Int) : Nat := (date + dateDelta).toNat % 7 + 1

namespace SystemTime

def time (date : SystemTime) : Option Int :=
  tryEncodeTime date.wHour date.wMinute date.wSecond date.wMilliseconds

/-- `none` is the exception of a date or a time that cannot be encoded. -/
def encodeDSTMargin (date : SystemTime) (year : Nat) : Option Int :=
  if date.wYear = 0 then do
    let temp ← tryEncodeDate year date.wMonth 1
    let result : Int := temp + ((date.wDayOfWeek + 8 - dayOfWeek temp) % 7 : Nat) +
      7 * ((date.wDay : Int) - 1)
    let result ←
      if date.wDay = 5 then do
        let (month, year) := nextMonth date.wMonth year
        let next ← tryEncodeDate year month 1
        pure (if result ≥ next then result - 7 else result)
      else pure result
    let time ← date.time
    pure (result * mSecsPerDay + time)
  else do
    let result ← tryEncodeDate year date.wMonth date.wDay
    let time ← date.time
    pure (result * mSecsPerDay + time)

end SystemTime

/-- What the system says about a year. -/
structure TimeZone where
  standardDate : SystemTime
  daylightDate : SystemTime

def TimeZone.hasDST (zone : TimeZone) : Bool :=
  zone.standardDate.wMonth != 0 && zone.daylightDate.wMonth != 0

def decodeYearOf (dateTime : Int) : Option Nat :=
  (decodeDate (dateTime.tdiv mSecsPerDay)).map Prod.fst

/-- `zones` are those that the system gives for each year, and for 0 that of the current
one. -/
def isDateInDST (zones : Nat → TimeZone) (currentYear : Nat) (dateTime : Int) : Option Bool := do
  let year ← decodeYearOf dateTime
  let zone := zones year
  let year := if year ≠ 0 then year else currentYear
  if !zone.hasDST then pure false
  else
    let standardDate ← zone.standardDate.encodeDSTMargin year
    let daylightDate ← zone.daylightDate.encodeDSTMargin year
    if daylightDate < standardDate then
      pure (decide (dateTime ≥ daylightDate) && decide (dateTime < standardDate))
    else pure (decide (dateTime < standardDate) || decide (dateTime ≥ daylightDate))

/-! ## The day of a rule -/

/-- A rule for every year, by month, weekday (0 is Sunday) and occurrence of it. -/
structure SystemTime.IsRule (date : SystemTime) : Prop where
  wYear : date.wYear = 0
  month_pos : 1 ≤ date.wMonth
  month_le : date.wMonth ≤ 12
  weekday : date.wDayOfWeek ≤ 6
  day_pos : 1 ≤ date.wDay
  day_le : date.wDay ≤ 5
  time : date.time ≠ none

/-- The day of the month is the weekday of the rule, and it is the occurrence that the rule
tells: the one in its seven days of the month, or for 5 the last one. -/
structure SystemTime.IsDay (date : SystemTime) (year day : Nat) : Prop where
  isDate : IsDate year date.wMonth day
  weekday : dayNumber year date.wMonth day % 7 = date.wDayOfWeek
  nth : date.wDay ≠ 5 → 7 * (date.wDay - 1) < day ∧ day ≤ 7 * date.wDay
  last : date.wDay = 5 → daysInMonth year date.wMonth < day + 7

/-- January 1, 2000 was a Saturday. -/
example : (Blocks.start yearDays 1999 + 1) % 7 = 6 := by
  rw [start_yearDays]

variable {date : SystemTime} {year month day : Nat}

theorem dayNumber_eq (year month day : Nat) (h : 1 ≤ day) :
    dayNumber year month day = dayNumber year month 1 + (day - 1) := by
  simp only [dayNumber]
  omega

/-- The first day behind a month follows its last one. -/
theorem tryEncodeDate_nextMonth (h : IsDate year month 1)
    (hlast : ¬ (year = 9999 ∧ month = 12)) :
    tryEncodeDate (nextMonth month year).2 (nextMonth month year).1 1 =
      some ((dayNumber year month 1 + daysInMonth year month : Nat) - dateDelta) := by
  have hbound := daysInMonth_le year h.month_pos h.month_le
  have hdays : IsDate year month (daysInMonth year month) :=
    ⟨h.year_pos, h.year_le, h.month_pos, h.month_le, by omega, Nat.le_refl _⟩
  have hnext := nextDay_dayNumber hdays
  rw [nextDay, if_neg (Nat.lt_irrefl _), dayNumber_eq _ _ (daysInMonth year month) (by omega)]
    at hnext
  have hmonth := h.month_le
  have hpos := h.month_pos
  have hyear := h.year_le
  unfold nextMonth
  split at hnext
  next hlt =>
    have hdate : IsDate year (month + 1) 1 :=
      ⟨h.year_pos, h.year_le, by omega, by omega, Nat.le_refl 1,
        (daysInMonth_le year (by omega) (by omega)).1.trans' (by decide)⟩
    rw [if_neg (by omega), tryEncodeDate_some hdate, hnext]
    congr 3
    omega
  next hlt =>
    have htwelve : month = 12 := by omega
    have hdate : IsDate (year + 1) 1 1 :=
      ⟨by omega, by omega, by omega, by omega, Nat.le_refl 1,
        (daysInMonth_le _ (by omega) (by omega)).1.trans' (by decide)⟩
    rw [if_pos (by omega), htwelve, tryEncodeDate_some hdate, hnext, htwelve]
    congr 3
    rw [htwelve] at hbound
    omega

theorem tryEncodeDate_none (h : 9999 < year) : tryEncodeDate year month day = none := by
  simp only [tryEncodeDate]
  exact if_neg (by omega)

/-- The place of the first such weekday in the month, counted from 0. -/
def SystemTime.firstPlace (date : SystemTime) (year : Nat) : Nat :=
  (date.wDayOfWeek + 8 - (dayNumber year date.wMonth 1 % 7 + 1)) % 7

theorem dayOfWeek_dayNumber (t : Nat) : dayOfWeek ((t : Int) - dateDelta) = t % 7 + 1 := by
  have hnat : ((t : Int) - dateDelta + dateDelta).toNat = t := by omega
  rw [dayOfWeek, hnat]

namespace SystemTime

theorem IsRule.isDate_first (h : date.IsRule) (hyear : 1 ≤ year ∧ year ≤ 9999) :
    IsDate year date.wMonth 1 :=
  ⟨hyear.1, hyear.2, h.month_pos, h.month_le, Nat.le_refl 1,
    (daysInMonth_le year h.month_pos h.month_le).1.trans' (by decide)⟩

/-- A day of the month with the right remainder of weeks is the weekday of the rule. -/
theorem weekday_of_firstPlace (h : date.IsRule) (k : Nat)
    (hday : day = date.firstPlace year + 7 * k + 1) :
    dayNumber year date.wMonth day % 7 = date.wDayOfWeek := by
  have hweekday := h.weekday
  rw [dayNumber_eq _ _ _ (by omega), hday, firstPlace]
  omega

/-- The margin is the day of the rule with its time. -/
theorem encodeDSTMargin_some (h : date.IsRule) (hyear : 1 ≤ year ∧ year ≤ 9999)
    (hlast : ¬ (year = 9999 ∧ date.wMonth = 12 ∧ date.wDay = 5)) :
    ∃ day time, date.IsDay year day ∧ date.time = some time ∧ date.encodeDSTMargin year =
      some ((dayNumber year date.wMonth day - dateDelta) * mSecsPerDay + time) := by
  obtain ⟨time, htime⟩ := Option.ne_none_iff_exists'.mp h.time
  have hfirst := h.isDate_first hyear
  have hbound := daysInMonth_le year h.month_pos h.month_le
  have hplace : date.firstPlace year < 7 := Nat.mod_lt _ (by decide)
  have hpos := h.day_pos
  have hle := h.day_le
  have hnumber : ∀ k : Nat, (dayNumber year date.wMonth 1 : Int) - dateDelta +
      date.firstPlace year + 7 * k =
        dayNumber year date.wMonth (date.firstPlace year + 7 * k + 1) - dateDelta := fun k => by
    rw [dayNumber_eq _ _ (date.firstPlace year + 7 * k + 1) (by omega)]
    omega
  have hwday : (date.wDay : Int) - 1 = (date.wDay - 1 : Nat) := by omega
  have hvalid : ∀ k, date.firstPlace year + 7 * k + 1 ≤ daysInMonth year date.wMonth →
      IsDate year date.wMonth (date.firstPlace year + 7 * k + 1) := fun k hk =>
    ⟨hyear.1, hyear.2, h.month_pos, h.month_le, by omega, hk⟩
  simp only [encodeDSTMargin, h.wYear, if_true, tryEncodeDate_some hfirst, dayOfWeek_dayNumber,
    htime, Option.bind_eq_bind, Option.bind_some, Option.pure_def]
  rw [← firstPlace, hwday, hnumber]
  by_cases hfive : date.wDay = 5
  · rw [if_pos hfive, tryEncodeDate_nextMonth hfirst (fun h => hlast ⟨h.1, h.2, hfive⟩),
      Option.bind_some]
    have hover := dayNumber_eq year date.wMonth (date.firstPlace year + 7 * (date.wDay - 1) + 1)
      (by omega)
    have hfour := hnumber 3
    have hfifth := hnumber (5 - 1)
    split
    next hge =>
      refine ⟨date.firstPlace year + 7 * 3 + 1, time, ⟨hvalid 3 (by omega),
        weekday_of_firstPlace h 3 rfl, fun hne => absurd hfive hne, fun _ => by omega⟩, rfl, ?_⟩
      rw [hfive] at hge ⊢
      congr 3
      omega
    next hlt =>
      refine ⟨date.firstPlace year + 7 * 4 + 1, time, ⟨hvalid 4 (by omega),
        weekday_of_firstPlace h 4 rfl, fun hne => absurd hfive hne, fun _ => by omega⟩, rfl, ?_⟩
      rw [hfive]
  · rw [if_neg hfive]
    exact ⟨date.firstPlace year + 7 * (date.wDay - 1) + 1, time, ⟨hvalid _ (by omega),
      weekday_of_firstPlace h _ rfl, fun _ => by omega, fun h => absurd h hfive⟩, rfl, rfl⟩

/-- The month behind December 9999 cannot be encoded. -/
theorem encodeDSTMargin_none (h : date.IsRule) (hmonth : date.wMonth = 12)
    (hday : date.wDay = 5) : date.encodeDSTMargin 9999 = none := by
  have hfirst : IsDate 9999 date.wMonth 1 := h.isDate_first (by decide)
  have hnext : tryEncodeDate (nextMonth date.wMonth 9999).2 (nextMonth date.wMonth 9999).1 1 =
      none := by
    rw [hmonth]
    exact tryEncodeDate_none (by decide)
  simp only [encodeDSTMargin, h.wYear, if_true, tryEncodeDate_some hfirst, hday, hnext,
    Option.bind_eq_bind, Option.bind_some, Option.bind_none]

theorem IsDay.unique (h : date.IsRule) {day' : Nat} (hday : date.IsDay year day)
    (hday' : date.IsDay year day') : day = day' := by
  have hdate := hday.isDate
  have hdate' := hday'.isDate
  have hweek := hday.weekday
  have hweek' := hday'.weekday
  have hpos := hdate.day_pos
  have hpos' := hdate'.day_pos
  have hle := hdate.day_le
  have hle' := hdate'.day_le
  rw [dayNumber_eq _ _ _ hpos] at hweek
  rw [dayNumber_eq _ _ _ hpos'] at hweek'
  by_cases hfive : date.wDay = 5
  · have hlast := hday.last hfive
    have hlast' := hday'.last hfive
    omega
  · have hnth := hday.nth hfive
    have hnth' := hday'.nth hfive
    have := h.day_pos
    omega

/-- `result` is the moment of the rule in a year. -/
def IsMargin (date : SystemTime) (year : Nat) (result : Option Int) : Prop :=
  ∃ day time, date.IsDay year day ∧ date.time = some time ∧
    result = some ((dayNumber year date.wMonth day - dateDelta) * mSecsPerDay + time)

/-- The last month of all has no month behind it. -/
def IsLastOfAll (date : SystemTime) (year : Nat) : Prop :=
  year = 9999 ∧ date.wMonth = 12 ∧ date.wDay = 5

theorem isMargin_iff (h : date.IsRule) (hyear : 1 ≤ year ∧ year ≤ 9999) :
    date.IsMargin year (date.encodeDSTMargin year) ↔ ¬ date.IsLastOfAll year := by
  constructor
  · rintro ⟨day, time, -, -, hmargin⟩ ⟨rfl, hmonth, hday⟩
    rw [encodeDSTMargin_none h hmonth hday] at hmargin
    cases hmargin
  · exact encodeDSTMargin_some h hyear

end SystemTime

/-! ## The time between the margins -/

/-- From the one margin to the other, or, where daylight saving time begins later than it
ends, but for what lies between them. -/
def InDST (daylight standard dateTime : Int) : Prop :=
  if standard < daylight then dateTime < standard ∨ daylight ≤ dateTime
  else daylight ≤ dateTime ∧ dateTime < standard

namespace TimeZone

/-- Both rules are for the same moment of a year. -/
def Coincide (zone : TimeZone) (year : Nat) : Prop :=
  zone.standardDate.wMonth = zone.daylightDate.wMonth ∧
    zone.standardDate.time = zone.daylightDate.time ∧
    ∃ day, zone.standardDate.IsDay year day ∧ zone.daylightDate.IsDay year day

/-- Both margins are those of the rules, and the dates between them are those for which
`result` is true. -/
def IsInDST (zone : TimeZone) (year : Nat) (dateTime : Int) (result : Option Bool) : Prop :=
  ∃ standard daylight inDST, zone.standardDate.encodeDSTMargin year = some standard ∧
    zone.daylightDate.encodeDSTMargin year = some daylight ∧
    zone.standardDate.IsMargin year (some standard) ∧
    zone.daylightDate.IsMargin year (some daylight) ∧
    result = some inDST ∧ (inDST = true ↔ InDST daylight standard dateTime)

end TimeZone

variable {dateTime : Int}

theorem tryEncodeTime_lt {hour min sec mSec : Nat} {time : Int}
    (h : tryEncodeTime hour min sec mSec = some time) : 0 ≤ time ∧ time < mSecsPerDay := by
  unfold tryEncodeTime at h
  split at h
  · cases h
    simp only [mSecsPerDay]
    omega
  · cases h

/-- A moment is a day and a time of it. -/
theorem moment_inj {a b s t : Int} (hs : 0 ≤ s ∧ s < mSecsPerDay) (ht : 0 ≤ t ∧ t < mSecsPerDay)
    (h : a * mSecsPerDay + s = b * mSecsPerDay + t) : a = b ∧ s = t := by
  simp only [mSecsPerDay] at *
  omega

/-- The margins are equal only where the rules are for the same moment. -/
theorem margins_eq_iff {zone : TimeZone} {year : Nat} {standard daylight : Int}
    (hstandard : zone.standardDate.IsRule) (hdaylight : zone.daylightDate.IsRule)
    (hs : zone.standardDate.IsMargin year (some standard))
    (hd : zone.daylightDate.IsMargin year (some daylight)) :
    standard = daylight ↔ zone.Coincide year := by
  obtain ⟨day, time, hday, htime, hvalue⟩ := hs
  obtain ⟨day', time', hday', htime', hvalue'⟩ := hd
  rw [Option.some.injEq] at hvalue hvalue'
  constructor
  · intro heq
    obtain ⟨hnumber, htimes⟩ := moment_inj (tryEncodeTime_lt htime) (tryEncodeTime_lt htime')
      (hvalue.symm.trans (heq.trans hvalue'))
    obtain ⟨-, hmonth, rfl⟩ := dayNumber_inj hday.isDate hday'.isDate (by omega)
    exact ⟨hmonth, by rw [htime, htime', htimes], day, hday, hday'⟩
  · rintro ⟨hmonth, htimes, both, hboth, hboth'⟩
    rw [htime, htime', Option.some.injEq] at htimes
    rw [hvalue, hvalue', hday.unique hstandard hboth, hday'.unique hdaylight hboth', hmonth, htimes]

/-- Where the margins are different, the comparisons are those of the interval. Where they
are equal, they hold for every time and the interval is empty. -/
theorem inDST_iff (daylight standard dateTime : Int) :
    ((if daylight < standard then decide (dateTime ≥ daylight) && decide (dateTime < standard)
        else decide (dateTime < standard) || decide (dateTime ≥ daylight)) = true ↔
      InDST daylight standard dateTime) ↔ standard ≠ daylight := by
  unfold InDST
  rcases Int.lt_trichotomy daylight standard with hlt | rfl | hlt
  · rw [if_pos hlt, if_neg (by omega), Bool.and_eq_true, decide_eq_true_eq, decide_eq_true_eq]
    exact iff_of_true Iff.rfl (by omega)
  · rw [if_neg (by omega), if_neg (by omega), Bool.or_eq_true, decide_eq_true_eq,
      decide_eq_true_eq]
    refine iff_of_false (fun h => ?_) (fun h => h rfl)
    have hempty := h.mp (by omega)
    omega
  · rw [if_neg (by omega), if_pos hlt, Bool.or_eq_true, decide_eq_true_eq, decide_eq_true_eq]
    exact iff_of_true Iff.rfl (by omega)

theorem isDateInDST_eq (zones : Nat → TimeZone) (currentYear : Nat) {year : Nat}
    {standard daylight : Int}
    (hyear : decodeYearOf dateTime = some year) (hpos : 1 ≤ year)
    (hstandard : (zones year).standardDate.IsRule) (hdaylight : (zones year).daylightDate.IsRule)
    (hs : (zones year).standardDate.encodeDSTMargin year = some standard)
    (hd : (zones year).daylightDate.encodeDSTMargin year = some daylight) :
    isDateInDST zones currentYear dateTime = some (if daylight < standard then
      decide (dateTime ≥ daylight) && decide (dateTime < standard)
      else decide (dateTime < standard) || decide (dateTime ≥ daylight)) := by
  have hzone : (zones year).hasDST = true := by
    have := hstandard.month_pos
    have := hdaylight.month_pos
    simp only [TimeZone.hasDST, Bool.and_eq_true, bne_iff_ne]
    omega
  have hne : year ≠ 0 := by omega
  simp only [isDateInDST, hyear, Option.bind_eq_bind, Option.bind_some, hzone, if_pos hne, hs, hd,
    Bool.not_true, Bool.false_eq_true, if_false, Option.pure_def]
  split <;> rfl

/-- The margins of a year are the days of the rules, and the dates in daylight saving time
are those between them, exactly where no rule is for the last occurrence in December
9999 and the two are not for the same moment. -/
theorem daylight_right_iff (zones : Nat → TimeZone) (currentYear year : Nat) (dateTime : Int)
    (hyear : decodeYearOf dateTime = some year) (hrange : 1 ≤ year ∧ year ≤ 9999)
    (hstandard : (zones year).standardDate.IsRule) (hdaylight : (zones year).daylightDate.IsRule) :
    (zones year).IsInDST year dateTime (isDateInDST zones currentYear dateTime) ↔
      ¬ (zones year).standardDate.IsLastOfAll year ∧
      ¬ (zones year).daylightDate.IsLastOfAll year ∧ ¬ (zones year).Coincide year := by
  have hs := SystemTime.isMargin_iff hstandard hrange
  have hd := SystemTime.isMargin_iff hdaylight hrange
  constructor
  · rintro ⟨standard, daylight, inDST, hs', hd', hsm, hdm, hresult, hin⟩
    rw [isDateInDST_eq zones currentYear hyear hrange.1 hstandard hdaylight hs' hd', Option.some.injEq] at hresult
    rw [← hresult, inDST_iff] at hin
    exact ⟨hs.mp (hs' ▸ hsm), hd.mp (hd' ▸ hdm),
      fun hco => hin ((margins_eq_iff hstandard hdaylight hsm hdm).mpr hco)⟩
  · rintro ⟨hnots, hnotd, hco⟩
    obtain ⟨day, time, hsm⟩ := hs.mpr hnots
    obtain ⟨day', time', hdm⟩ := hd.mpr hnotd
    have hsm' : (zones year).standardDate.IsMargin year (some _) := ⟨day, time, hsm.1, hsm.2.1, rfl⟩
    have hdm' : (zones year).daylightDate.IsMargin year (some _) :=
      ⟨day', time', hdm.1, hdm.2.1, rfl⟩
    refine ⟨_, _, _, hsm.2.2, hdm.2.2, hsm', hdm',
      isDateInDST_eq zones currentYear hyear hrange.1 hstandard hdaylight hsm.2.2 hdm.2.2, ?_⟩
    rw [inDST_iff]
    exact mt (margins_eq_iff hstandard hdaylight hsm' hdm').mp hco

/-- The year of a time on or after day 0. -/
theorem decodeYearOf_moment {d : Nat} {day : Int} (time : Int) (h : IsDate year month d)
    (hday : dayNumber year month d - dateDelta = day) (hpos : 0 ≤ day)
    (htime : 0 ≤ time ∧ time < mSecsPerDay) :
    decodeYearOf (day * mSecsPerDay + time) = some year := by
  have hdiv : (day * mSecsPerDay + time).tdiv mSecsPerDay = day := by
    simp only [mSecsPerDay] at htime ⊢
    rw [Int.tdiv_eq_ediv_of_nonneg (by omega)]
    omega
  rw [decodeYearOf, hdiv, ← hday, decodeDate_encoded h]
  rfl

/-- Daylight saving time from March to October, as in Central Europe. -/
def summerTime : TimeZone where
  standardDate := ⟨0, 10, 0, 5, 3, 0, 0, 0⟩
  daylightDate := ⟨0, 3, 0, 5, 2, 0, 0, 0⟩

theorem isRule_summerTime : summerTime.standardDate.IsRule ∧ summerTime.daylightDate.IsRule :=
  ⟨⟨rfl, by decide, by decide, by decide, by decide, by decide, by decide⟩,
    ⟨rfl, by decide, by decide, by decide, by decide, by decide, by decide⟩⟩

theorem isDate_july : IsDate 2020 7 1 ∧ (dayNumber 2020 7 1 : Int) - dateDelta = 44013 := by
  rw [dayNumber, start_yearDays]
  exact ⟨⟨by decide, by decide, by decide, by decide, by decide, by decide⟩, by decide⟩

/-- On July 1, 2020. -/
theorem daylight_right_july : decodeYearOf (44013 * mSecsPerDay + 0) = some 2020 ∧
    summerTime.IsInDST 2020 (44013 * mSecsPerDay + 0)
      (isDateInDST (fun _ => summerTime) 2020 (44013 * mSecsPerDay + 0)) := by
  have hyear := decodeYearOf_moment 0 isDate_july.1 isDate_july.2 (by decide) (by decide)
  refine ⟨hyear, (daylight_right_iff (fun _ => summerTime) 2020 2020 _ hyear
    (by decide) isRule_summerTime.1 isRule_summerTime.2).mpr ⟨?_, ?_, ?_⟩⟩
  · exact fun h => absurd h.1 (by decide)
  · exact fun h => absurd h.1 (by decide)
  · exact fun h => absurd h.1 (by decide)

/-- With the same rule for both margins, here for March 29, July 1 is in daylight saving
time though nothing lies between them; and there is no last Sunday in December 9999. -/
theorem daylight_wrong :
    isDateInDST (fun _ => ⟨summerTime.daylightDate, summerTime.daylightDate⟩) 2020
      (44013 * mSecsPerDay + 0) = some true ∧
    summerTime.daylightDate.encodeDSTMargin 2020 = some (43919 * mSecsPerDay + 7200000) ∧
    ¬ InDST (43919 * mSecsPerDay + 7200000) (43919 * mSecsPerDay + 7200000)
      (44013 * mSecsPerDay + 0) ∧
    (SystemTime.mk 0 12 0 5 2 0 0 0).encodeDSTMargin 9999 = none := by
  have hyear := decodeYearOf_moment 0 isDate_july.1 isDate_july.2 (by decide) (by decide)
  have hmargin : summerTime.daylightDate.encodeDSTMargin 2020 =
      some (43919 * mSecsPerDay + 7200000) := by decide
  refine ⟨?_, hmargin, ?_, by decide⟩
  · have hcompare := isDateInDST_eq
      (fun _ => ⟨summerTime.daylightDate, summerTime.daylightDate⟩) 2020 hyear (by decide)
      isRule_summerTime.2 isRule_summerTime.2 hmargin hmargin
    exact hcompare.trans (by decide)
  · unfold InDST
    rw [if_neg (Int.lt_irrefl _)]
    omega

end NetBox.Calendar
