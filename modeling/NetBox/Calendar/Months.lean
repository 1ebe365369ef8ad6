import NetBox.Calendar.Date

/-! # Adding months

`IncAMonth`, `IncMonth` and `IncYear` of Sysutils.cpp. The months are divided by 12, and
then the remainder is added to the year and the quotient to the month. The day is
compared with the entry behind that of the month, and replaced by one that in general
lies outside of the table. The two rows of the table lie behind each other, so that
the entry behind December of the first row is January of the second one.
-/
namespace NetBox.Calendar

open List

/-- The conversion of a signed number to 16 bits. -/
def word (n : Int) : Nat := (n % 2 ^ 16).toNat

/-- The year and the month of `IncAMonth`. -/
def incYearMonth (year month : Nat) (numberOfMonths : Int) : Nat × Nat :=
  let sign : Int := if numberOfMonths ≥ 0 then 1 else -1
  let year := word (year + numberOfMonths.tmod 12)
  let numberOfMonths := numberOfMonths.tdiv 12
  let month := word (month + word numberOfMonths)
  if word (month - 1) > 11 then (word (year + word sign), word (month + -12 * word sign))
  else (year, month)

/-- The entry at an index counted from the start of a row; `none` is a read outside of
the table. -/
def tableEntry (row index : Nat) : Option Nat :=
  (monthDays false ++ monthDays true)[12 * row + index]?

def incAMonth (year month day : Nat) (numberOfMonths : Int) : Option (Nat × Nat × Nat) := do
  let (year, month) := incYearMonth year month numberOfMonths
  let row := (isLeapYear year).toNat
  let days ← tableEntry row month
  if day > days then
    -- `*DayTable[Month]` is the first entry of a row that is `month` rows further
    let day ← tableEntry (row + month) 0
    return (year, month, day)
  else return (year, month, day)

/-- `none` is also the exception of `EncodeDate`. -/
def incMonth (value numberOfMonths : Int) : Option Int := do
  let (year, month, day) ← decodeDate value
  let (year, month, day) ← incAMonth year month day numberOfMonths
  tryEncodeDate year month day

def incYear (value numberOfYears : Int) : Option Int := incMonth value (numberOfYears * 12)

/-- The month that lies `n` months later. -/
structure IsMonthLater (year month : Nat) (n : Int) (year' month' : Nat) : Prop where
  year_pos : 1 ≤ year'
  year_le : year' ≤ 9999
  month_pos : 1 ≤ month'
  month_le : month' ≤ 12
  later : (12 * year' + month' : Int) = 12 * year + month + n

variable {year month day year' month' : Nat} {n : Int}

theorem word_add_word (a b : Int) : word (a + word b) = word (a + b) := by
  simp only [word]
  omega

theorem word_word_add (a b : Int) : word (word a + b) = word (a + b) := by
  rw [Int.add_comm, word_add_word, Int.add_comm]

theorem word_eq_iff {a : Int} {b : Nat} (hlow : -2 ^ 15 ≤ a) (hhigh : a < 2 ^ 15)
    (hb : b < 2 ^ 15) : word a = b ↔ a = b := by
  simp only [word]
  omega

/-- The carry from the month to the year, where it takes place in whole numbers. -/
theorem incYearMonth_eq (year month : Nat) (n sign : Int)
    (hsign : sign = if n ≥ 0 then 1 else -1) (hlow : -2 ^ 15 < month + n.tdiv 12)
    (hhigh : month + n.tdiv 12 < 2 ^ 15) :
    incYearMonth year month n =
      if 1 ≤ month + n.tdiv 12 ∧ month + n.tdiv 12 ≤ 12 then
        (word (year + n.tmod 12), word (month + n.tdiv 12))
      else (word (year + n.tmod 12 + sign), word (month + n.tdiv 12 - 12 * sign)) := by
  have htwelve : ∀ a : Int, word (a + -12 * word sign) = word (a - 12 * sign) := by
    intro a
    rw [hsign]
    split <;> simp only [word] <;> omega
  have hover : word ((word (month + n.tdiv 12) : Int) - 1) > 11 ↔
      ¬ (1 ≤ month + n.tdiv 12 ∧ month + n.tdiv 12 ≤ 12) := by
    simp only [word]
    omega
  simp only [incYearMonth, ← hsign, word_add_word, hover, ite_not]
  split
  · rfl
  · rw [word_word_add, htwelve]
    rw [show ((word (month + n.tdiv 12) : Int) - 12 * sign) =
      (word (month + n.tdiv 12) : Int) + -(12 * sign) by omega, word_word_add]
    congr 2

/-- The year and the month are right when the quotient and the remainder are the same. -/
theorem incYearMonth_iff (h : IsDate year month day) (h' : IsMonthLater year month n year' month') :
    incYearMonth year month n = (year', month') ↔ n.tdiv 12 = n.tmod 12 := by
  obtain ⟨hyear, hyear', hmonth, hmonth', -, -⟩ := h
  obtain ⟨hy, hy', hm, hm', hlater⟩ := h'
  have hn := Int.mul_tdiv_add_tmod n 12
  have hlow := Int.lt_tmod_of_pos n (b := 12) (by decide)
  have hhigh := Int.tmod_lt_of_pos n (b := 12) (by decide)
  obtain ⟨sign, hsign⟩ : ∃ sign : Int, sign = if n ≥ 0 then 1 else -1 := ⟨_, rfl⟩
  -- the numbers are small, so that nothing is lost in 16 bits
  rw [incYearMonth_eq year month n sign hsign (by omega) (by omega)]
  generalize n.tdiv 12 = q at *
  generalize n.tmod 12 = r at *
  split
  · rw [Prod.mk.injEq, word_eq_iff (by omega) (by omega) (by omega),
      word_eq_iff (by omega) (by omega) (by omega)]
    omega
  · have hunit : n ≥ 0 ∧ sign = 1 ∨ n < 0 ∧ sign = -1 := by
      split at hsign <;> omega
    rw [Prod.mk.injEq, word_eq_iff (by omega) (by omega) (by omega),
      word_eq_iff (by omega) (by omega) (by omega)]
    omega

/-! ## The day -/

/-- Behind the last month there is only the second row. -/
theorem tableEntry_month (leap : Bool) (hmonth : 1 ≤ month) (hmonth' : month ≤ 12) :
    tableEntry leap.toNat month =
      if month < 12 then some (dayTable leap month) else if leap then none else some 31 := by
  have hall : ∀ leap, ∀ month < 13, 1 ≤ month → tableEntry leap.toNat month =
      if month < 12 then some (dayTable leap month) else if leap then none else some 31 := by
    decide
  exact hall leap month (by omega) hmonth

/-- There is only one row further, and only from the one of the other years. -/
theorem tableEntry_ahead {leap : Bool} (hmonth : 1 ≤ month) :
    tableEntry (leap.toNat + month) 0 = some day ↔ month = 1 ∧ leap = false ∧ day = 31 := by
  have hother : 2 ≤ leap.toNat + month ∨ leap.toNat + month = 1 := by omega
  rcases hother with hother | hother
  · have hlength : (monthDays false ++ monthDays true).length = 24 := rfl
    have hnone : tableEntry (leap.toNat + month) 0 = none := getElem?_eq_none (by omega)
    rw [hnone]
    refine iff_of_false (by simp) ?_
    rintro ⟨rfl, rfl, -⟩
    exact absurd hother (by decide)
  · rw [hother]
    have hzero : leap.toNat = 0 := by omega
    have hleap : leap = false := Bool.toNat_eq_zero.mp hzero
    have hone : month = 1 := by omega
    show some 31 = some day ↔ _
    simp only [Option.some.injEq, hone, hleap, true_and]
    exact eq_comm

/-- The day is kept where the entry behind that of the month allows it. -/
theorem incAMonth_iff {result : Nat × Nat × Nat} (hmonth : 1 ≤ month')
    (h : incYearMonth year month n = (year', month')) :
    incAMonth year month day n = some result ↔
      ∃ days, tableEntry (isLeapYear year').toNat month' = some days ∧
        (day ≤ days ∧ result = (year', month', day) ∨
          days < day ∧ month' = 1 ∧ isLeapYear year' = false ∧ result = (year', month', 31)) := by
  simp only [incAMonth, h, Option.bind_eq_bind, Option.bind_eq_some_iff]
  refine exists_congr fun days => and_congr_right fun _ => ?_
  by_cases hlater : days < day
  · simp only [gt_iff_lt, hlater, if_true, Nat.not_le.mpr hlater, false_and, false_or, true_and,
      Option.bind_eq_some_iff, tableEntry_ahead hmonth, Option.pure_def, Option.some.injEq]
    constructor
    · rintro ⟨_, ⟨hone, hleap, rfl⟩, rfl⟩
      exact ⟨hone, hleap, rfl⟩
    · rintro ⟨hone, hleap, rfl⟩
      exact ⟨31, ⟨hone, hleap, rfl⟩, rfl⟩
  · simp only [gt_iff_lt, hlater, if_false, false_and, or_false, Nat.le_of_not_lt hlater,
      true_and, Option.pure_def, Option.some.injEq]
    exact eq_comm

theorem incAMonth_month {result : Nat × Nat × Nat}
    (h : incAMonth year month day n = some result) :
    incYearMonth year month n = (result.1, result.2.1) := by
  simp only [incAMonth, Option.bind_eq_bind, Option.bind_eq_some_iff, Option.pure_def] at h
  obtain ⟨days, -, h⟩ := h
  split at h
  · obtain ⟨d, -, h⟩ := Option.bind_eq_some_iff.mp h
    cases h
    rfl
  · cases h
    rfl

theorem incMonth_eq (h : IsDate year month day) (n : Int) :
    incMonth (dayNumber year month day - dateDelta) n =
      (incAMonth year month day n).bind fun (year, month, day) => tryEncodeDate year month day := by
  rw [incMonth, decodeDate_encoded h]
  rfl

/-- The date `n` months later, on the same day or on the last one of a month that does not
have that day. -/
def IsIncMonth (year month day : Nat) (n : Int) (result : Option Int) : Prop :=
  ∃ year' month', IsMonthLater year month n year' month' ∧
    IsDate year' month' (min day (daysInMonth year' month')) ∧
    result = tryEncodeDate year' month' (min day (daysInMonth year' month'))

/-- Thirteen months for each one by which both the year and the month are to change, to
no December of a leap year, and to a day that is in that month and in the one behind it,
or to January 31. -/
def IncsRight (year month day : Nat) (n : Int) : Prop :=
  n.tdiv 12 = n.tmod 12 ∧ ∃ year' month', IsMonthLater year month n year' month' ∧
    ¬ (month' = 12 ∧ isLeapYear year' = true) ∧
    (day ≤ daysInMonth year' month' ∧ (month' < 12 → day ≤ daysInMonth year' (month' + 1)) ∨
      month' = 1 ∧ isLeapYear year' = false ∧ day = 31)

theorem tableEntry_later (h : IsMonthLater year month n year' month') :
    tableEntry (isLeapYear year').toNat month' =
      if month' < 12 then some (daysInMonth year' (month' + 1))
      else if isLeapYear year' then none else some 31 :=
  tableEntry_month _ h.month_pos h.month_le

theorem incsRight_of_isIncMonth (h : IsDate year month day)
    (hright : IsIncMonth year month day n (incMonth (dayNumber year month day - dateDelta) n)) :
    IncsRight year month day n := by
  obtain ⟨year', month', hlater, hdate, hresult⟩ := hright
  rw [incMonth_eq h, tryEncodeDate_some hdate, Option.bind_eq_some_iff] at hresult
  obtain ⟨⟨y, m, d⟩, hinc, hencode⟩ := hresult
  dsimp only at hencode
  have hfound := isDate_of_tryEncodeDate hencode
  rw [tryEncodeDate_some hfound, Option.some.injEq] at hencode
  obtain ⟨rfl, rfl, hday⟩ := dayNumber_inj hfound hdate (by omega)
  have hmonth := incAMonth_month hinc
  obtain ⟨days, hentry, hcases⟩ := (incAMonth_iff hlater.month_pos hmonth).mp hinc
  rw [tableEntry_later hlater] at hentry
  have hbound := daysInMonth_le year h.month_pos h.month_le
  have hle := h.day_le
  refine ⟨(incYearMonth_iff h hlater).mp hmonth, y, m, hlater, ?_, ?_⟩
  · rintro ⟨rfl, hleap⟩
    simp [hleap] at hentry
  · rcases hcases with ⟨hnext, hsame⟩ | ⟨hnext, hone, hleap, hsame⟩
    · simp only [Prod.mk.injEq, true_and] at hsame
      refine .inl ⟨by omega, fun hlast => ?_⟩
      rw [if_pos hlast, Option.some.injEq] at hentry
      omega
    · simp only [Prod.mk.injEq, true_and] at hsame
      exact .inr ⟨hone, hleap, by omega⟩

theorem isIncMonth_of_incsRight (h : IsDate year month day) (hright : IncsRight year month day n) :
    IsIncMonth year month day n (incMonth (dayNumber year month day - dateDelta) n) := by
  obtain ⟨hsame, year', month', hlater, hlast, hcases⟩ := hright
  have hmonth := (incYearMonth_iff h hlater).mpr hsame
  have hbound := daysInMonth_le year' hlater.month_pos hlater.month_le
  have hday : min day (daysInMonth year' month') = day := by
    rcases hcases with ⟨hle, -⟩ | ⟨rfl, hleap, rfl⟩
    · omega
    · have hjanuary : daysInMonth year' 1 = 31 := by
        rw [daysInMonth, hleap]
        rfl
      rw [hjanuary, Nat.min_self]
  have hinc : incAMonth year month day n = some (year', month', day) := by
    refine (incAMonth_iff hlater.month_pos hmonth).mpr ?_
    rw [tableEntry_later hlater]
    rcases hcases with ⟨hin, hnext⟩ | ⟨rfl, hleap, rfl⟩
    · by_cases hbefore : month' < 12
      · exact ⟨_, if_pos hbefore, .inl ⟨hnext hbefore, rfl⟩⟩
      · have hleap : ¬ isLeapYear year' = true := fun hleap =>
          hlast ⟨Nat.le_antisymm hlater.month_le (Nat.le_of_not_lt hbefore), hleap⟩
        rw [if_neg hbefore, if_neg hleap]
        exact ⟨31, rfl, .inl ⟨by omega, rfl⟩⟩
    · refine ⟨_, if_pos (by decide), .inr ⟨?_, rfl, hleap, rfl⟩⟩
      rw [daysInMonth, hleap]
      decide
  refine ⟨year', month', hlater, ?_, ?_⟩
  · rw [hday]
    exact ⟨hlater.year_pos, hlater.year_le, hlater.month_pos, hlater.month_le, h.day_pos, by omega⟩
  · rw [incMonth_eq h, hinc, hday]
    rfl

/-- `IncMonth` is right exactly for the months that the exchange of quotient and
remainder does not matter to, and for days that are also in the month behind. -/
theorem incMonth_right_iff (year month day : Nat) (date n k : Int)
    (h : tryEncodeDate year month day = some date) :
    (IsIncMonth year month day n (incMonth date n) ∧ incYear date k = incMonth date (12 * k)) ↔
      IncsRight year month day n := by
  have hdate := isDate_of_tryEncodeDate h
  rw [tryEncodeDate_some hdate, Option.some.injEq] at h
  subst h
  rw [incYear, Int.mul_comm, and_iff_left rfl]
  exact ⟨incsRight_of_isIncMonth hdate, isIncMonth_of_incsRight hdate⟩

/-- Thirteen months after November 15, 2020. -/
theorem incMonth_thirteen :
    IsIncMonth 2020 11 15 13 (incMonth 44150 13) ∧ incYear 44150 1 = incMonth 44150 (12 * 1) :=
  (incMonth_right_iff 2020 11 15 44150 13 1 (by decide)).mpr
    ⟨by decide, 2021, 12, ⟨by decide, by decide, by decide, by decide, by decide⟩, by decide,
      by decide⟩

/-- A month after March 15, 2020 is March 15, 2021. -/
theorem incMonth_year_later : tryEncodeDate 2020 3 15 = some 43905 ∧
    incMonth 43905 1 = tryEncodeDate 2021 3 15 ∧ incMonth 43905 1 ≠ tryEncodeDate 2020 4 15 := by
  have hdate : IsDate 2020 3 15 :=
    ⟨by decide, by decide, by decide, by decide, by decide, by decide⟩
  have hinc := incMonth_eq hdate 1
  have hnumber : (dayNumber 2020 3 15 : Int) - dateDelta = 43905 := by
    rw [dayNumber, start_yearDays]
    decide
  have hlater : (incAMonth 2020 3 15 1).bind
      (fun (year, month, day) => tryEncodeDate year month day) = tryEncodeDate 2021 3 15 := by
    decide
  rw [hnumber, hlater] at hinc
  refine ⟨by decide, hinc, ?_⟩
  rw [hinc]
  decide

end NetBox.Calendar
