import NetBox.Remote.Rights
import NetBox.Remote.Tokens
import NetBox.Base.Integers
import NetBox.Base.Url
import NetBox.Calendar.Daylight

/-! # Lines of a directory listing

`SetListingStr` takes a line of `ls -l` apart, column by column. A line that gives the time of
a file gives no year: it is the current one, or the one before when the day would be in the
future. Every exception on the way ends in the same error, which holds the line.

A line holds no U+0000. `CompareIC` is given by the texts it takes for equal, and what
`AdjustDateTimeFromUnix` makes of a time by a function. Times are milliseconds, as in
`NetBox.Calendar.Daylight`.
-/
namespace NetBox.Remote
open Base.Text Calendar List

inductive TModificationFmt
  | mfNone
  | mfMDHM
  | mfYMDHM
  | mfMDY
  | mfFull
deriving DecidableEq

structure TRemoteFile where
  type : WChar := 0
  isSymLink : Bool := false
  rights : TRights := .ofNumber 0
  iNodeBlocks : Int := 0
  owner : TRemoteToken := {}
  group : TRemoteToken := {}
  modification : Int := 0
  modificationFmt : TModificationFmt := .mfNone
  lastAccess : Int := 0
  size : Int := 0
  linkTo : UnicodeString := []
  fileName : UnicodeString := []
  isHidden : Bool := false
deriving DecidableEq

namespace Listing

/-- What a line is read with. -/
structure Setting where
  sameIC : UnicodeString → UnicodeString → Bool
  adjustDateTimeFromUnix : Int → Int
  /-- `Date()` -/
  date : Int

/-- `GETNCOL`: the column, and the line behind it. -/
def getNCol (line : UnicodeString) : Option (UnicodeString × UnicodeString) :=
  if line.isEmpty then none
  else some (line.takeWhile (· != 32), (line.dropWhile (· != 32)).drop 1)

/-- `GETCOL` -/
def getCol (line : UnicodeString) : Option (UnicodeString × UnicodeString) :=
  (getNCol line).map fun (col, line) => (col, trimLeft line)

def strToInt64Def (value : UnicodeString) (defVal : Int) : Int :=
  if (tryStrToInt64 value).1 then (tryStrToInt64 value).2 else defVal

def asWord (value : Int) : Nat := (value % 2 ^ 16).toNat

def subString (str : UnicodeString) (index length : Nat) : UnicodeString :=
  (str.drop (index - 1)).take length

/-! ## The columns before the date -/

def setType (file : TRemoteFile) (type : WChar) : TRemoteFile :=
  { file with type, isSymLink := type == 76 || type == 108 }

/-- The signs that may follow the rights. -/
def isRightsSign (ch : WChar) : Bool := ch == 43 || ch == 64 || ch == 46

def skipRightsSign : UnicodeString → UnicodeString
  | [] => []
  | [ch] => if isRightsSign ch then [] else [ch]
  | ch :: next :: line =>
    if isRightsSign ch then next :: line
    else if ch == 32 && isRightsSign next then line
    else ch :: next :: line

/-- The loop that reads the group and the size, with the column it begins with. Each pass takes
a column, so the length of the line is fuel enough. -/
def groupAndSize : Nat → UnicodeString → UnicodeString → UnicodeString →
    Option (UnicodeString × Int × UnicodeString)
  | 0, _, _, _ => none
  | fuel + 1, group, col, line => do
    let group := group ++ col
    let (col, line) ← getCol line
    if group = wstr "?" ∧ col = wstr "?" then pure (group, 0, line)
    else
      let (col, line) ← if col.getLast? = some 44 then getCol line else pure (col, line)
      let size := strToInt64Def col (-1)
      if size < 0 then groupAndSize fuel group (32 :: col) line
      else pure (group, size, line)

/-- The file, its size and the line from the date on. -/
def leadingColumns (file : TRemoteFile) (value : UnicodeString) :
    Option (TRemoteFile × Int × UnicodeString) := do
  let line := value.map fun ch => if ch = 9 then 32 else ch
  let file := setType file (← line.head?)
  let line := line.drop 1
  let rights ← ((file.rights.setAllowUndef true).setText (line.take 9)).toOption
  let line := trimLeft (skipRightsSign (line.drop 9))
  let (col, line) ← getCol line
  let (found, iNodeBlocks) := tryStrToInt64 col
  let (col, line) ← if found then getCol line else pure (col, line)
  let owner := file.owner.setName col
  let (col, line) ← getCol line
  let (group, size, line) ← groupAndSize (line.length + 1) [] col line
  pure ({ file with
    rights, iNodeBlocks := if found then iNodeBlocks else 0
    owner, group := file.group.setName group }, size, line)

/-! ## The date -/

/-- What the columns of the date say, and the line behind them. -/
structure Stamp where
  year : Nat := 0
  month : Nat := 0
  day : Nat := 0
  hour : Nat := 0
  min : Nat := 0
  sec : Nat := 0
  fmt : TModificationFmt
  line : UnicodeString

/-- A number of at most so many characters, as `swscanf` reads it. -/
def scanNumber (width : Nat) (str : UnicodeString) : Option (Int × UnicodeString) :=
  let str := str.dropWhile isSpace
  let sign := signOf (str.take width)
  let digits := (str.drop sign.length).take (width - sign.length) |>.takeWhile isDigit
  if digits.isEmpty then none
  else some (signed sign (digitsValue digits), str.drop (sign.length + digits.length))

def scanChar (ch : WChar) : UnicodeString → Option UnicodeString
  | [] => none
  | c :: str => if c = ch then some str else none

/-- Three numbers, the first of at most so many characters and the others of two, with a
character between them. -/
def scanThree (width : Nat) (ch : WChar) (str : UnicodeString) :
    Option (Int × Int × Int × UnicodeString) := do
  let (a, str) ← scanNumber width str
  let (b, str) ← scanNumber 2 (← scanChar ch str)
  let (c, str) ← scanNumber 2 (← scanChar ch str)
  pure (a, b, c, str)

def engShortMonthNames : List UnicodeString :=
  [wstr "Jan", wstr "Feb", wstr "Mar", wstr "Apr", wstr "May", wstr "Jun", wstr "Jul",
    wstr "Aug", wstr "Sep", wstr "Oct", wstr "Nov", wstr "Dec"]

/-- `COL2MONTH`, 0 for what is no month. -/
def colToMonth (s : Setting) (col : UnicodeString) : Nat :=
  match engShortMonthNames.findIdx? (s.sameIC col) with
  | some i => i + 1
  | none => 0

/-- A scanned date, with the time and the zone in the next columns. The milliseconds behind a
time make no difference. -/
def scannedStamp (file : TRemoteFile) (y m d : Int) (line : UnicodeString) : Option Stamp := do
  let (col, line) ← getCol line
  let stamp : Stamp :=
    { year := asWord y, month := asWord m, day := asWord d, fmt := file.modificationFmt, line }
  match scanThree 2 58 col with
  | some (h, mn, sec, _) =>
    let (_, line) ← getNCol line
    pure { stamp with hour := asWord h, min := asWord mn, sec := asWord sec, fmt := .mfFull, line }
  | none => pure stamp

/-- `yyyy-mm-dd` that was not scanned. -/
def fullTimeStamp (col line : UnicodeString) : Option Stamp := do
  let year := asWord (strToIntDef (subString col 1 4) 0)
  let month := asWord (strToIntDef (subString col 6 2) 0)
  let day := asWord (strToIntDef (subString col 9 2) 0)
  let (col, line) ← getCol line
  let hour := asWord (strToIntDef (subString col 1 2) 0)
  let min := asWord (strToIntDef (subString col 4 2) 0)
  let sec := if 8 ≤ col.length then asWord (strToInt64 (subString col 7 2)) else 0
  let (_, line) ← getNCol line
  pure { year, month, day, hour, min, sec, fmt := .mfFull, line }

/-- The column that holds a time or a year. The check is made behind a full time too, where the
column is the year. The position of the colon is kept in 16 bits. -/
def timeOrYear (s : Setting) (month day : Nat) (col line : UnicodeString) : Option Stamp :=
  let p := pos [58] col % 2 ^ 16
  if 0 < p then do
    let hour := asWord (strToInt64 (subString col 1 (p - 1)))
    let min := asWord (strToInt64 (subString col (p + 1) (col.length - p)))
    if 23 < hour ∨ 59 < min then none
    else
      let (year, currMonth, currDay) ← decodeDate s.date
      let year := if month > currMonth ∨ month = currMonth ∧ day > currDay then year - 1 else year
      pure { year, month, day, hour, min, fmt := .mfMDHM, line }
  else
    let year := asWord (strToInt64 col)
    if 10000 < year then none else some { year, month, day, fmt := .mfMDY, line }

/-- The columns behind the month. -/
def monthStamp (s : Setting) (fullTime dayMonthFormat : Bool) (month day : Nat)
    (line : UnicodeString) : Option Stamp := do
  let (day, line) ←
    if day = 0 then (getNCol line).map fun (col, line) => (asWord (strToInt64 col), line)
    else pure (day, line)
  if day < 1 ∨ 31 < day then none
  else if fullTime then do
    let (col, line) ← getCol line
    -- the time read here is overwritten behind the year
    if col.length ≠ 8 then none
    else
      let (col, line) ← getNCol line
      timeOrYear s month day col line
  else if dayMonthFormat then do
    let (col, line) ← getCol line
    timeOrYear s month day col line
  else timeOrYear s month day (trim (line.take 6)) (line.drop 6)

/-- `dd mmm` or `mmm dd`, or one of the other formats of a full time. -/
def namedStamp (s : Setting) (col line : UnicodeString) : Option Stamp := do
  let day := asWord (strToIntDef col 0)
  let (col, line) ← if 0 < day then getCol line else pure (col, line)
  let month := colToMonth s col
  if month = 0 ∧ col.length = 10 ∧ col[4]? = some 45 ∧ col[7]? = some 45 then
    fullTimeStamp col line
  else if month = 0 then do
    let (col, line) ← getCol line
    let month := colToMonth s col
    if month = 0 then none else monthStamp s true (0 < day) month day line
  else monthStamp s false (0 < day) month day line

def dateStamp (s : Setting) (file : TRemoteFile) (col line : UnicodeString) : Option Stamp :=
  match scanThree 4 45 col with
  | some (y, m, d, _) => scannedStamp file y m d line
  | none => namedStamp s col line

/-- The time a stamp stands for. What it lacks is that of the current date. -/
def stampTime (s : Setting) (stamp : Stamp) : Option Int := do
  let (currYear, currMonth, currDay) ← decodeDate s.date
  let date ← tryEncodeDate (if stamp.year = 0 then currYear else stamp.year)
    (if stamp.month = 0 then currMonth else stamp.month)
    (if stamp.day = 0 then currDay else stamp.day)
  let time ← tryEncodeTime stamp.hour stamp.min stamp.sec 0
  let modification := date * mSecsPerDay + time
  pure (if stamp.fmt = .mfMDHM ∨ stamp.fmt = .mfYMDHM ∨ stamp.fmt = .mfFull then
    s.adjustDateTimeFromUnix modification else modification)

/-- The file with the date of the line, and the line behind it. -/
def setDate (s : Setting) (file : TRemoteFile) (line : UnicodeString) :
    Option (TRemoteFile × UnicodeString) := do
  let (col, line) ← getCol line
  if col = wstr "?" then
    let (_, line) ← getCol line
    pure ({ file with modificationFmt := .mfNone, modification := 0, lastAccess := 0 }, line)
  else
    let stamp ← dateStamp s file col line
    let modification ← stampTime s stamp
    pure ({ file with
      modification, modificationFmt := stamp.fmt
      lastAccess := if file.lastAccess = 0 then modification else file.lastAccess }, stamp.line)

/-! ## The name -/

def symLinkStr : UnicodeString := wstr " -> "

/-- A file that has a name keeps it. -/
def setName (file : TRemoteFile) (size : Int) (line : UnicodeString) : Option TRemoteFile :=
  if file.fileName.isEmpty then
    if file.isSymLink then
      let p := pos symLinkStr line
      if 0 < p then
        some { file with
          size, linkTo := line.drop (p - 1 + symLinkStr.length)
          fileName := unixExtractFileName (trim (line.take (p - 1))) }
      else none
    else some { file with size, linkTo := [], fileName := unixExtractFileName (trim line) }
  else some file

/-- The error is that of the line. -/
def setListingStr (s : Setting) (file : TRemoteFile) (value : UnicodeString) :
    Except UnicodeString TRemoteFile :=
  let read := do
    let (file, size, line) ← leadingColumns file value
    -- a date that was set before is kept, and the name with it
    if file.modification = 0 then
      let (file, line) ← setDate s file line
      setName file size line
    else pure file
  read.elim (.error value) .ok

/-! ## Lines without a year -/

/-- The digits of a number. -/
structure NumberText (text : UnicodeString) (n : Nat) : Prop where
  ne_nil : text ≠ []
  digits : ∀ ch ∈ text, isDigit ch = true
  value : digitsValue text = n

def isLetter (ch : WChar) : Bool := (65 ≤ ch && ch ≤ 90) || (97 ≤ ch && ch ≤ 122)

/-- Letters that are taken for the name of a month, and of no other one. -/
structure MonthText (s : Setting) (text : UnicodeString) (month : Nat) : Prop where
  ne_nil : text ≠ []
  letters : ∀ ch ∈ text, isLetter ch = true
  same : ∀ i name, engShortMonthNames[i]? = some name → (s.sameIC text name = true ↔ i + 1 = month)

/-- A month, a day and a time, with any number of blanks between them, and the line behind
them. The time behind a day is the one in the next six characters. -/
inductive DateColumns (s : Setting) (month day hour min : Nat) :
    UnicodeString → UnicodeString → Prop
  | monthDay {m d h mn line : UnicodeString} {k i j : Nat} (hm : MonthText s m month)
      (hd : NumberText d day) (hh : NumberText h hour) (hmn : NumberText mn min)
      (hwindow : i + (h ++ 58 :: mn).length + j = 6) :
      DateColumns s month day hour min
        (m ++ 32 :: (List.replicate k 32 ++ (d ++ 32 ::
          (List.replicate i 32 ++ ((h ++ 58 :: mn) ++ (List.replicate j 32 ++ line)))))) line
  | dayMonth {m d h mn line : UnicodeString} {k i : Nat} (hm : MonthText s m month)
      (hd : NumberText d day) (hh : NumberText h hour) (hmn : NumberText mn min)
      (hcolon : h.length + 1 < 2 ^ 16) :
      DateColumns s month day hour min
        (d ++ 32 :: (List.replicate k 32 ++ (m ++ 32 ::
          (List.replicate i 32 ++ ((h ++ 58 :: mn) ++ 32 :: line))))) (trimLeft line)

/-! ## Reading the columns -/

variable {s : Setting} {text col line : UnicodeString} {n month day hour min : Nat} {ch : WChar}

theorem getNCol_append (h : 32 ∉ col) (line : UnicodeString) :
    getNCol (col ++ 32 :: line) = some (col, line) := by
  have hne : (col ++ 32 :: line).isEmpty = false := by simp
  rw [getNCol, hne, takeWhile_until h, dropWhile_until h]
  rfl

theorem getCol_append (h : 32 ∉ col) (line : UnicodeString) :
    getCol (col ++ 32 :: line) = some (col, trimLeft line) := by
  rw [getCol, getNCol_append h]
  rfl

/-- Blanks are skipped up to the next column. -/
theorem trimLeft_blanks (k : Nat) (hne : text ≠ []) (h : 32 ∉ text) (line : UnicodeString) :
    trimLeft (List.replicate k 32 ++ (text ++ line)) = text ++ line := by
  obtain ⟨c, rest, rfl⟩ := exists_cons_of_ne_nil hne
  have hc : (c == 32) = false := by
    rw [beq_eq_false_iff_ne]
    intro heq
    exact h (heq ▸ mem_cons_self)
  rw [trimLeft, dropWhile_append_of_pos (by simp), cons_append,
    dropWhile_cons_of_neg (by simp [hc])]

theorem trimRight_replicate (text : UnicodeString) (k : Nat) :
    trimRight (text ++ List.replicate k 32) = trimRight text := by
  induction k with
  | zero => rw [replicate_zero, append_nil]
  | succ k ih =>
    rw [replicate_succ', ← append_assoc, trimRight,
      rdropWhile_concat_pos _ _ _ (by decide)]
    exact ih

theorem NumberText.not_mem (h : NumberText text n) (hch : isDigit ch = false) : ch ∉ text := by
  intro hmem
  rw [h.digits ch hmem] at hch
  cases hch

theorem NumberText.wtoi64 (h : NumberText text n) (hn : n < 2 ^ 31) :
    Base.Text.wtoi64 text = ((n : Int), false) := by
  have hreads : Reads [] [] text [] := ⟨by simp, rfl, h.digits, h.ne_nil, by simp⟩
  have hread := hreads.wtoi64
  rw [nil_append, nil_append, append_nil, h.value] at hread
  rw [hread, saturated_iff]
  simp only [signed, InInt64]
  refine ⟨rfl, ?_, ?_⟩
  · omega
  · omega

/-- Another spelling of zero is refused, and zero is what is taken instead. -/
theorem NumberText.tryStrToInt64 (h : NumberText text n) (hn : n < 2 ^ 31) :
    (tryStrToInt64 text).2 = n ∧ ((tryStrToInt64 text).1 = false → n = 0) := by
  simp only [Base.Text.tryStrToInt64, if_neg h.ne_nil, h.wtoi64 hn, true_and]
  intro hzero
  simp only [Bool.not_false, Bool.true_and, Bool.or_eq_false_iff, bne_eq_false_iff_eq] at hzero
  exact Int.natCast_eq_zero.mp hzero.1

theorem NumberText.strToInt64 (h : NumberText text n) (hn : n < 2 ^ 31) :
    strToInt64 text = n := by
  obtain ⟨hvalue, hrefused⟩ := h.tryStrToInt64 hn
  unfold Base.Text.strToInt64
  split
  · exact hvalue
  · next hnot => rw [hrefused (Bool.eq_false_iff.mpr hnot), Int.natCast_zero]

theorem NumberText.strToIntDef (h : NumberText text n) (hn : n < 2 ^ 31) :
    strToIntDef text 0 = n := by
  obtain ⟨hvalue, hrefused⟩ := h.tryStrToInt64 hn
  simp only [Base.Text.strToIntDef]
  split
  · rw [hvalue]
    exact Int.bmod_eq_of_le (by omega) (by omega)
  · next hnot => rw [hrefused (Bool.eq_false_iff.mpr hnot), Int.natCast_zero]

theorem asWord_natCast (h : n < 2 ^ 16) : asWord (n : Int) = n := by
  unfold asWord
  omega

/-- What has no `-` in it is no date of this kind. -/
theorem scanThree_none (width : Nat) (h : 45 ∉ text) : scanThree width 45 text = none := by
  have hchar : ∀ rest, rest <:+ text → scanChar 45 rest = none := by
    intro rest hsuffix
    cases rest with
    | nil => rfl
    | cons c rest =>
      rw [scanChar, if_neg]
      intro heq
      exact h (hsuffix.subset (heq ▸ mem_cons_self))
  have hscan : ∀ a rest, scanNumber width text = some (a, rest) → scanChar 45 rest = none := by
    intro a rest hread
    unfold scanNumber at hread
    dsimp only at hread
    split at hread
    · cases hread
    · cases hread
      have hsuffix : ∀ k, (text.dropWhile isSpace).drop k <:+ text := fun k =>
        (drop_suffix k _).trans (dropWhile_suffix isSpace)
      exact hchar _ (hsuffix _)
  unfold scanThree
  cases hread : scanNumber width text with
  | none => rfl
  | some read => simp [hscan read.1 read.2 hread]

theorem MonthText.colToMonth (h : MonthText s text month) (hmonth : 1 ≤ month ∧ month ≤ 12) :
    colToMonth s text = month := by
  have hfind : engShortMonthNames.findIdx? (s.sameIC text) = some (month - 1) := by
    rw [findIdx?_eq_some_iff_getElem]
    have hlt : month - 1 < engShortMonthNames.length := by
      change month - 1 < 12
      omega
    refine ⟨hlt, ?_, ?_⟩
    · exact (h.same _ _ (getElem?_eq_getElem hlt)).mpr (by omega)
    · intro j hj hother
      have hmonth' := (h.same j _ (getElem?_eq_getElem _)).mp hother
      omega
  rw [Listing.colToMonth, hfind]
  exact Nat.sub_add_cancel hmonth.1

theorem MonthText.not_mem (h : MonthText s text month) (hch : isLetter ch = false) : ch ∉ text := by
  intro hmem
  rw [h.letters ch hmem] at hch
  cases hch

/-- A month is no number. -/
theorem MonthText.strToIntDef (h : MonthText s text month) : strToIntDef text 0 = 0 := by
  obtain ⟨c, rest, rfl⟩ := exists_cons_of_ne_nil h.ne_nil
  have hletter := h.letters c mem_cons_self
  have hfacts : ∀ c : WChar, isLetter c = true →
      isSpace c = false ∧ isDigit c = false ∧ c ≠ 45 ∧ c ≠ 43 ∧ c ≠ 48 := by
    intro c hc
    simp only [isLetter, Bool.or_eq_true, Bool.and_eq_true, decide_eq_true_eq,
      UInt16.le_iff_toNat_le] at hc
    simp only [isSpace, isDigit, Bool.or_eq_false_iff, Bool.and_eq_false_iff,
      decide_eq_false_iff_not, beq_eq_false_iff_ne, ne_eq, UInt16.le_iff_toNat_le,
      ← UInt16.toNat_inj, UInt16.reduceToNat] at hc ⊢
    omega
  obtain ⟨hspace, hdigit, hminus, hplus, hzero⟩ := hfacts c hletter
  have hread : Base.Text.wtoi64 (c :: rest) = (0, false) := by
    rw [wtoi64_eq, dropWhile_of_head (by simpa using hspace)]
    have hsign : signOf (c :: rest) = [] := by simp [signOf, hminus, hplus]
    have hdigits : digitsOf (c :: rest) = [] := by simp [digitsOf, hsign, hdigit]
    rw [hsign, hdigits]
    rfl
  simp only [Base.Text.strToIntDef, tryStrToInt64, hread]
  repeat' split
  all_goals rfl

/-- The year a day of a line gets. -/
def inferredYear (currYear currMonth currDay month day : Nat) : Nat :=
  if month > currMonth ∨ month = currMonth ∧ day > currDay then currYear - 1 else currYear

/-- What a line says that gives a time. -/
def timeStamp (currYear currMonth currDay month day hour min : Nat) (line : UnicodeString) : Stamp :=
  { year := inferredYear currYear currMonth currDay month day
    month, day, hour, min, fmt := .mfMDHM, line }

section Columns
variable {h mn m d : UnicodeString} {currYear currMonth currDay : Nat}

theorem time_not_mem (hh : NumberText h hour) (hmn : NumberText mn min) (hch : isDigit ch = false)
    (hcolon : ch ≠ 58) : ch ∉ h ++ 58 :: mn := by
  intro hmem
  rcases mem_append.mp hmem with hmem | hmem
  · exact hh.not_mem hch hmem
  · cases hmem with
    | head => exact hcolon rfl
    | tail _ hmem => exact hmn.not_mem hch hmem

/-- The column of a date ends at a blank, and others may follow. -/
theorem setDate_of_dateStamp {file : TRemoteFile} {next : UnicodeString} {stamp : Stamp}
    (hblank : 32 ∉ col) (hquery : 63 ∉ col) (k : Nat) (hne : next ≠ []) (hnext : 32 ∉ next)
    (hstamp : dateStamp s file col (next ++ 32 :: line) = some stamp) :
    setDate s file (col ++ 32 :: (List.replicate k 32 ++ (next ++ 32 :: line))) =
      (stampTime s stamp).map fun modification => ({ file with
        modification, modificationFmt := stamp.fmt
        lastAccess := if file.lastAccess = 0 then modification else file.lastAccess },
        stamp.line) := by
  have hcol : col ≠ wstr "?" := by
    intro heq
    exact hquery (heq ▸ by decide)
  rw [setDate, getCol_append hblank, trimLeft_blanks k hne hnext]
  simp only [bind, Option.bind_some, if_neg hcol, hstamp]
  cases stampTime s stamp <;> rfl

variable (hdate : decodeDate s.date = some (currYear, currMonth, currDay))
  (hhour : hour < 24) (hmin : min < 60)
include hdate hhour hmin

theorem timeOrYear_time (hh : NumberText h hour) (hmn : NumberText mn min)
    (hcolon : h.length + 1 < 2 ^ 16) (line : UnicodeString) :
    timeOrYear s month day (h ++ 58 :: mn) line =
      some (timeStamp currYear currMonth currDay month day hour min line) := by
  have hpos : pos [58] (h ++ 58 :: mn) % 2 ^ 16 = h.length + 1 := by
    rw [pos_split (hh.not_mem (by decide)) mn, Nat.mod_eq_of_lt hcolon]
  have hleft : subString (h ++ 58 :: mn) 1 h.length = h := by simp [subString]
  have hright : subString (h ++ 58 :: mn) (h.length + 1 + 1)
      ((h ++ 58 :: mn).length - (h.length + 1)) = mn := by
    have hlen : (h ++ 58 :: mn).length - (h.length + 1) = mn.length := by
      simp only [length_append, length_cons]
      omega
    rw [subString, hlen, Nat.add_sub_cancel, ← drop_drop, drop_left]
    simp
  have hrange : ¬ (23 < hour ∨ 59 < min) := by omega
  simp only [timeOrYear, hpos, Nat.add_sub_cancel, hleft, hright,
    hh.strToInt64 (by omega), hmn.strToInt64 (by omega), asWord_natCast (n := hour) (by omega),
    asWord_natCast (n := min) (by omega), if_neg hrange, hdate]
  rfl

theorem monthStamp_window (hd : NumberText d day) (hday : 1 ≤ day ∧ day ≤ 31)
    (hh : NumberText h hour) (hmn : NumberText mn min) {i j : Nat}
    (hwindow : i + (h ++ 58 :: mn).length + j = 6) (line : UnicodeString) :
    monthStamp s false false month 0 (d ++ 32 ::
      (List.replicate i 32 ++ ((h ++ 58 :: mn) ++ (List.replicate j 32 ++ line)))) =
      some (timeStamp currYear currMonth currDay month day hour min line) := by
  have hsplit : List.replicate i 32 ++ ((h ++ 58 :: mn) ++ (List.replicate j 32 ++ line)) =
      (List.replicate i 32 ++ ((h ++ 58 :: mn) ++ List.replicate j 32)) ++ line := by
    simp only [append_assoc]
  have hlen : (List.replicate i (32 : WChar) ++ ((h ++ 58 :: mn) ++ List.replicate j 32)).length =
      6 := by
    simp only [length_append, length_replicate] at hwindow ⊢
    omega
  have htrim : trim (List.replicate i 32 ++ ((h ++ 58 :: mn) ++ List.replicate j 32)) =
      h ++ 58 :: mn := by
    have hfree : ∀ {ch}, isDigit ch = false → ch ≠ 58 → ch ∉ h ++ 58 :: mn := time_not_mem hh hmn
    rw [trim, trimLeft_blanks i (by simp) (hfree (by decide) (by decide)), trimRight_replicate,
      trimRight_eq ⟨hfree (by decide) (by decide), hfree (by decide) (by decide),
        hfree (by decide) (by decide), hfree (by decide) (by decide)⟩]
  have hrange : ¬ (day < 1 ∨ 31 < day) := by omega
  simp only [monthStamp, if_true, getNCol_append (hd.not_mem (by decide)), Option.map_some,
    hd.strToInt64 (by omega), asWord_natCast (n := day) (by omega), Bool.false_eq_true, if_false,
    Option.bind_some, bind, if_neg hrange, hsplit, take_left' hlen, drop_left' hlen, htrim]
  refine timeOrYear_time hdate hhour hmin hh hmn ?_ line
  simp only [length_append, length_cons] at hwindow
  omega

theorem dateStamp_monthDay (hm : MonthText s m month) (hmonth : 1 ≤ month ∧ month ≤ 12)
    (hd : NumberText d day) (hday : 1 ≤ day ∧ day ≤ 31) (hh : NumberText h hour)
    (hmn : NumberText mn min) {i j : Nat} (hwindow : i + (h ++ 58 :: mn).length + j = 6)
    (file : TRemoteFile) (line : UnicodeString) :
    dateStamp s file m (d ++ 32 ::
      (List.replicate i 32 ++ ((h ++ 58 :: mn) ++ (List.replicate j 32 ++ line)))) =
      some (timeStamp currYear currMonth currDay month day hour min line) := by
  have hzero : month ≠ 0 := by omega
  have hword : asWord 0 = 0 := rfl
  rw [dateStamp, scanThree_none 4 (hm.not_mem (by decide))]
  simp only [namedStamp, hm.strToIntDef, hword, Nat.lt_irrefl, if_false, pure, bind,
    Option.bind_some, hm.colToMonth hmonth, hzero, false_and, decide_false]
  exact monthStamp_window hdate hhour hmin hd hday hh hmn hwindow line

theorem dateStamp_dayMonth (hm : MonthText s m month) (hmonth : 1 ≤ month ∧ month ≤ 12)
    (hd : NumberText d day) (hday : 1 ≤ day ∧ day ≤ 31) (hh : NumberText h hour)
    (hmn : NumberText mn min) (hcolon : h.length + 1 < 2 ^ 16) (i : Nat) (file : TRemoteFile) (line : UnicodeString) :
    dateStamp s file d (m ++ 32 :: (List.replicate i 32 ++ ((h ++ 58 :: mn) ++ 32 :: line))) =
      some (timeStamp currYear currMonth currDay month day hour min (trimLeft line)) := by
  have hzero : month ≠ 0 := by omega
  have hpos : 0 < day := by omega
  have hrange : ¬ (day < 1 ∨ 31 < day) := by omega
  have hblank : (32 : WChar) ∉ m := hm.not_mem (by decide)
  have htime : (32 : WChar) ∉ h ++ 58 :: mn := time_not_mem hh hmn (by decide) (by decide)
  have hstamp : monthStamp s false true month day ((h ++ 58 :: mn) ++ 32 :: line) =
      some (timeStamp currYear currMonth currDay month day hour min (trimLeft line)) := by
    simp only [monthStamp, if_neg (Nat.ne_of_gt hpos), pure, bind, Option.bind_some, if_neg hrange,
      Bool.false_eq_true, if_false, if_true, getCol_append htime]
    exact timeOrYear_time hdate hhour hmin hh hmn hcolon (trimLeft line)
  rw [dateStamp, scanThree_none 4 (hd.not_mem (by decide))]
  simp only [namedStamp, hd.strToIntDef (show day < 2 ^ 31 by omega),
    asWord_natCast (show day < 2 ^ 16 by omega), hpos, if_true, pure, bind, getCol_append hblank,
    Option.bind_some, trimLeft_blanks i (show h ++ 58 :: mn ≠ [] by simp) htime,
    hm.colToMonth hmonth, hzero, false_and, if_false, decide_true, hstamp]

/-- The columns are read, in either order. -/
theorem DateColumns.setDate {text line : UnicodeString}
    (h : DateColumns s month day hour min text line) (hmonth : 1 ≤ month ∧ month ≤ 12)
    (hday : 1 ≤ day ∧ day ≤ 31) (file : TRemoteFile) :
    let stamp := timeStamp currYear currMonth currDay month day hour min line
    setDate s file text = (stampTime s stamp).map fun modification => ({ file with
      modification, modificationFmt := stamp.fmt
      lastAccess := if file.lastAccess = 0 then modification else file.lastAccess }, line) := by
  cases h with
  | @monthDay m d h mn _ k i j hm hd hh hmn hwindow =>
    exact setDate_of_dateStamp (hm.not_mem (by decide)) (hm.not_mem (by decide)) k hd.ne_nil
      (hd.not_mem (by decide))
      (dateStamp_monthDay hdate hhour hmin hm hmonth hd hday hh hmn hwindow file line)
  | @dayMonth m d h mn line k i hm hd hh hmn hcolon =>
    exact setDate_of_dateStamp (hd.not_mem (by decide)) (hd.not_mem (by decide)) k hm.ne_nil
      (hm.not_mem (by decide))
      (dateStamp_dayMonth hdate hhour hmin hm hmonth hd hday hh hmn hcolon i file line)

end Columns

/-! ## The year -/

/-- A line that gives a month, a day and a time but no year, for a file that was not dated
before. That of a link has the target in it. -/
def Yearless (s : Setting) (file : TRemoteFile) (value : UnicodeString)
    (month day hour min : Nat) : Prop :=
  hour < 24 ∧ min < 60 ∧ ∃ file' size text line,
    leadingColumns file value = some (file', size, text) ∧ file'.modification = 0 ∧
    DateColumns s month day hour min text line ∧
    (file'.isSymLink = true → file'.fileName = [] → 0 < pos symLinkStr line)

/-- The first day comes before the second one. -/
def Earlier (year month day year' month' day' : Nat) : Prop :=
  year < year' ∨ year = year' ∧ (month < month' ∨ month = month' ∧ day < day')

/-- When a minute of a day begins. -/
def moment (year month day hour min : Nat) : Int :=
  (dayNumber year month day - dateDelta) * mSecsPerDay + (hour * 3600000 + min * 60000 : Nat)

/-- The year a file is dated with. There is no year 0. -/
def lineYear (currYear currMonth currDay month day : Nat) : Nat :=
  if inferredYear currYear currMonth currDay month day = 0 then currYear
  else inferredYear currYear currMonth currDay month day

variable {file : TRemoteFile} {value : UnicodeString} {currYear currMonth currDay year : Nat}

theorem setName_some (size : Int) {line : UnicodeString}
    (h : file.isSymLink = true → file.fileName = [] → 0 < pos symLinkStr line) :
    ∃ f, setName file size line = some f ∧ f.modification = file.modification := by
  unfold setName
  split
  · next hempty =>
    split
    · next hlink =>
      have hpos := h hlink (List.isEmpty_iff.mp hempty)
      dsimp only
      rw [if_pos hpos]
      exact ⟨_, rfl, rfl⟩
    · exact ⟨_, rfl, rfl⟩
  · exact ⟨_, rfl, rfl⟩

theorem stampTime_timeStamp (hdate : decodeDate s.date = some (currYear, currMonth, currDay))
    (hmonth : 1 ≤ month) (hday : 1 ≤ day) (hhour : hour < 24) (hmin : min < 60)
    (line : UnicodeString) :
    stampTime s (timeStamp currYear currMonth currDay month day hour min line) =
      (tryEncodeDate (lineYear currYear currMonth currDay month day) month day).map fun date =>
        s.adjustDateTimeFromUnix (date * mSecsPerDay + (hour * 3600000 + min * 60000 : Nat)) := by
  have htime : tryEncodeTime hour min 0 0 = some ((hour * 3600000 + min * 60000 : Nat) : Int) := by
    simp [tryEncodeTime, hhour, hmin]
  have hmonth0 : month ≠ 0 := by omega
  have hday0 : day ≠ 0 := by omega
  simp only [stampTime, timeStamp, hdate, bind, Option.bind_some, pure, htime, true_or, if_true,
    hmonth0, hday0, if_false]
  rw [Option.map_eq_bind]
  rfl

/-- A line is accepted when its day exists in the year, and it is dated with that. -/
theorem Yearless.setListingStr (h : Yearless s file value month day hour min)
    (hdate : decodeDate s.date = some (currYear, currMonth, currDay))
    (hmonth : 1 ≤ month ∧ month ≤ 12) (hday : 1 ≤ day ∧ day ≤ 31) :
    (∀ f, setListingStr s file value = .ok f →
      IsDate (lineYear currYear currMonth currDay month day) month day) ∧
    (IsDate (lineYear currYear currMonth currDay month day) month day →
      ∃ f, setListingStr s file value = .ok f ∧ f.modification = s.adjustDateTimeFromUnix
        (moment (lineYear currYear currMonth currDay month day) month day hour min)) := by
  obtain ⟨hhour, hmin, file', size, text, line, hlead, hundated, hcolumns, hlink⟩ := h
  have hset := hcolumns.setDate hdate hhour hmin hmonth hday file'
  dsimp only at hset
  rw [stampTime_timeStamp hdate hmonth.1 hday.1 hhour hmin, Option.map_map] at hset
  simp only [Listing.setListingStr, hlead, bind, Option.bind_some, hundated, if_true, hset]
  refine ⟨?_, ?_⟩
  · intro f hok
    cases hencode : tryEncodeDate (lineYear currYear currMonth currDay month day) month day with
    | none =>
      rw [hencode] at hok
      cases hok
    | some date => exact isDate_of_tryEncodeDate hencode
  · intro hvalid
    rw [tryEncodeDate_some hvalid]
    have hnamed : ∀ dated : TRemoteFile, dated.isSymLink = file'.isSymLink →
        dated.fileName = file'.fileName → ∃ f : TRemoteFile,
          (setName dated size line).elim (.error value) Except.ok = .ok f ∧
            f.modification = dated.modification := by
      intro dated hsym hfile
      obtain ⟨f, hname, hmod⟩ := setName_some size (by rw [hsym, hfile]; exact hlink)
      exact ⟨f, by rw [hname]; rfl, hmod⟩
    exact hnamed _ rfl rfl

theorem lineYear_past (hcurr : 1 ≤ currYear) (hyear : 1 ≤ year)
    (hle : ¬ Earlier currYear currMonth currDay year month day)
    (hlt : Earlier (currYear - 1) currMonth currDay year month day) :
    lineYear currYear currMonth currDay month day = year := by
  unfold Earlier at hle hlt
  unfold lineYear inferredYear
  split <;> split <;> omega

/-- Only in February the length of a month depends on the year. -/
theorem daysInMonth_eq (year year' : Nat) (h : month ≠ 2) (hle : month ≤ 12) :
    daysInMonth year month = daysInMonth year' month := by
  have htable : ∀ leap, ∀ i < 12, i ≠ 1 → dayTable leap i = dayTable false i := by decide
  unfold daysInMonth
  rw [htable (isLeapYear year) (month - 1) (by omega) (by omega),
    htable (isLeapYear year') (month - 1) (by omega) (by omega)]

theorem daysInMonth_february (year : Nat) :
    daysInMonth year 2 = if isLeapYear year then 29 else 28 := by
  unfold daysInMonth
  cases isLeapYear year <;> rfl

/-- A leap year does not follow another one, nor is the first year one. -/
theorem isLeapYear_pred (hpos : 1 ≤ year) (h : isLeapYear year = true) :
    2 ≤ year ∧ isLeapYear (year - 1) = false := by
  simp only [isLeapYear, Bool.and_eq_true, beq_iff_eq] at h
  have hfour := h.1
  refine ⟨by omega, ?_⟩
  simp only [isLeapYear, Bool.and_eq_false_iff, beq_eq_false_iff_ne]
  left
  omega

/-- The day behind the current one exists in the year it is given, unless it is a leap day. -/
theorem isDate_lineYear_next (hT : IsDate currYear currMonth currDay) (hd : IsDate year month day)
    (hnext : nextDay currYear currMonth currDay = (year, month, day)) :
    IsDate (lineYear currYear currMonth currDay month day) month day ↔ ¬ (month = 2 ∧ day = 29) := by
  obtain ⟨hpos, hle, -, -, -, -⟩ := hT
  obtain ⟨-, -, hm1, hm12, hd1, hday⟩ := hd
  have hyear : 1 ≤ lineYear currYear currMonth currDay month day ∧
      lineYear currYear currMonth currDay month day ≤ 9999 := by
    unfold lineYear inferredYear
    split <;> split <;> omega
  by_cases hfeb : month = 2
  · subst hfeb
    rw [daysInMonth_february] at hday
    constructor
    · intro hvalid hleap
      obtain ⟨-, -, -, -, -, hdays⟩ := hvalid
      have hy : isLeapYear year = true := by
        by_contra hnot
        rw [if_neg hnot] at hday
        omega
      -- a leap day comes behind February 28 of its own year, and is given the year before
      have hsame : year = currYear ∧ currMonth = 2 ∧ day = currDay + 1 := by
        unfold nextDay at hnext
        split at hnext
        · simp only [Prod.mk.injEq] at hnext
          omega
        · split at hnext <;> simp only [Prod.mk.injEq] at hnext <;> omega
      obtain ⟨rfl, hm, hcd⟩ := hsame
      obtain ⟨htwo, hpred⟩ := isLeapYear_pred hpos hy
      have hinferred : inferredYear year currMonth currDay 2 day = year - 1 := if_pos (by omega)
      have hline : lineYear year currMonth currDay 2 day = year - 1 := by
        rw [lineYear, hinferred, if_neg (by omega)]
      rw [hline, daysInMonth_february, hpred] at hdays
      simp only [Bool.false_eq_true, if_false] at hdays
      omega
    · intro hleap
      refine ⟨hyear.1, hyear.2, hm1, hm12, hd1, ?_⟩
      rw [daysInMonth_february]
      split at hday <;> split <;> omega
  · refine ⟨fun _ hleap => hfeb hleap.1, fun _ => ⟨hyear.1, hyear.2, hm1, hm12, hd1, ?_⟩⟩
    rw [daysInMonth_eq _ year hfeb hm12]
    exact hday

/-- A line without a year is dated with the last day it can stand for: one up to the current
date and behind the same day of the year before is the date of the file. A line of the next
day, from a server whose clock is ahead, is accepted as well, unless that is February 29: the
day is given the year before, which has none, and the line is reported as an error. -/
theorem yearless_line_iff (s : Setting) (file : TRemoteFile) (value : UnicodeString)
    (hT : IsDate currYear currMonth currDay)
    (hdate : s.date = dayNumber currYear currMonth currDay - dateDelta)
    (hd : IsDate year month day) (hline : Yearless s file value month day hour min) :
    ((¬ Earlier currYear currMonth currDay year month day →
        Earlier (currYear - 1) currMonth currDay year month day →
        ∃ f, setListingStr s file value = .ok f ∧
          f.modification = s.adjustDateTimeFromUnix (moment year month day hour min)) ∧
      (nextDay currYear currMonth currDay = (year, month, day) →
        ∃ f, setListingStr s file value = .ok f)) ↔
    ¬ (month = 2 ∧ day = 29 ∧ nextDay currYear currMonth currDay = (year, month, day)) := by
  have hdecode : decodeDate s.date = some (currYear, currMonth, currDay) := by
    rw [hdate]
    exact decodeDate_encoded hT
  have hday31 : day ≤ 31 := hd.day_le.trans (daysInMonth_le year hd.month_pos hd.month_le).2
  obtain ⟨hvalid, haccepted⟩ := hline.setListingStr hdecode ⟨hd.month_pos, hd.month_le⟩
    ⟨hd.day_pos, hday31⟩
  constructor
  · intro hboth hleap
    obtain ⟨f, hok⟩ := hboth.2 hleap.2.2
    exact (isDate_lineYear_next hT hd hleap.2.2).mp (hvalid f hok) ⟨hleap.1, hleap.2.1⟩
  · intro hleap
    refine ⟨?_, ?_⟩
    · intro hle hlt
      rw [lineYear_past hT.year_pos hd.year_pos hle hlt] at haccepted
      exact haccepted hd
    · intro hnext
      have hexists := (isDate_lineYear_next hT hd hnext).mpr fun h => hleap ⟨h.1, h.2, hnext⟩
      obtain ⟨f, hok, -⟩ := haccepted hexists
      exact ⟨f, hok⟩

/-- Texts that are the same, and no adjustment of times. -/
def plainSetting (date : Int) : Setting := ⟨fun a b => a == b, id, date⟩

def leapDayLine : UnicodeString := wstr "-rw-r--r-- 1 me us 5 Feb 29 00:10 a"

theorem yearless_leapDay (date : Int) : Yearless (plainSetting date) {} leapDayLine 2 29 0 10 := by
  have hnumber : ∀ text n, text ≠ [] → text.all isDigit = true → digitsValue text = n →
      NumberText text n :=
    fun _ _ hne hall hvalue => ⟨hne, all_eq_true.mp hall, hvalue⟩
  have hmonth : MonthText (plainSetting date) (wstr "Feb") 2 := by
    refine ⟨by decide, all_eq_true.mp rfl, ?_⟩
    have hsame : ∀ i : Fin engShortMonthNames.length,
        (wstr "Feb" == engShortMonthNames.get i) = true ↔ i.val + 1 = 2 := by decide
    intro i name hname
    obtain ⟨hlt, rfl⟩ := List.getElem?_eq_some_iff.mp hname
    exact hsame ⟨i, hlt⟩
  refine ⟨by decide, by decide, _, _, _, wstr "a", rfl, rfl, ?_, fun hlink => absurd hlink (by decide)⟩
  exact .monthDay (k := 0) (i := 0) (j := 1) hmonth (hnumber (wstr "29") 29 (by decide) rfl rfl)
    (hnumber (wstr "00") 0 (by decide) rfl rfl) (hnumber (wstr "10") 10 (by decide) rfl rfl) rfl

theorem isDate_leapDay : IsDate 2024 2 29 ∧ IsDate 2024 2 28 ∧ IsDate 2024 3 1 ∧
    (dayNumber 2024 2 28 : Int) - dateDelta = 45350 ∧
    (dayNumber 2024 3 1 : Int) - dateDelta = 45352 := by
  refine ⟨?_, ?_, ?_, ?_, ?_⟩
  · constructor <;> decide
  · constructor <;> decide
  · constructor <;> decide
  · rw [dayNumber, start_yearDays]
    rfl
  · rw [dayNumber, start_yearDays]
    rfl

/-- On March 1 the line is that of the leap day. -/
theorem yearless_line_march : ∃ f,
    setListingStr (plainSetting 45352) {} leapDayLine = .ok f ∧
      f.modification = moment 2024 2 29 0 10 := by
  have hline := yearless_line_iff (plainSetting 45352) {} leapDayLine isDate_leapDay.2.2.1
    isDate_leapDay.2.2.2.2.symm isDate_leapDay.1 (yearless_leapDay 45352)
  exact (hline.mpr (by decide)).1 (by unfold Earlier; decide) (by unfold Earlier; decide)

/-- On February 28 it is an error. -/
theorem yearless_line_february : Yearless (plainSetting 45350) {} leapDayLine 2 29 0 10 ∧
    (dayNumber 2024 2 28 : Int) - dateDelta = 45350 ∧ nextDay 2024 2 28 = (2024, 2, 29) ∧
    setListingStr (plainSetting 45350) {} leapDayLine = .error leapDayLine :=
  ⟨yearless_leapDay 45350, isDate_leapDay.2.2.2.1, by decide, by decide +kernel⟩

end Listing
end NetBox.Remote
