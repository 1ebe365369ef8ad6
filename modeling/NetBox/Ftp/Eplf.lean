import NetBox.Ftp.Entry
import NetBox.Calendar.Date
import NetBox.Lib.Segments

/-! # Lines in the EPLF format

A line is a plus sign, facts that each end with a comma, a tab and a name. `parseAsEPLF` fills
in a new entry, but it writes the permissions to the entry of its caller, which the new entry
then replaces.
-/
namespace NetBox.Ftp
open Base.Text Calendar Lib.Segments List

/-- The fields of a `tm` that are read. -/
structure Tm where
  year : Nat
  month : Nat
  day : Nat
  hour : Int
  minute : Int

/-- The times that `gmtime` knows begin with the year 1970. The last one depends on the runtime
library; it is before the year 10000. -/
structure Clock where
  last : Nat
  last_lt : last < 253402300800

def gmtime (clock : Clock) (time : Int) : Option Tm :=
  if 0 ≤ time ∧ time ≤ clock.last then
    (decodeDate (time / 86400 + 25569)).map fun (year, month, day) =>
      ⟨year, month, day, time % 86400 / 3600, time % 3600 / 60⟩
  else none

/-- Neither the seconds nor `utc` are set. -/
def timeTToDate (tm : Tm) (date : Date) : Date :=
  { date with
    year := tm.year, hasyear := true, month := tm.month, day := tm.day, hour := tm.hour
    minute := tm.minute, hasdate := true, hastime := true }

/-- One fact, of the text from its beginning on and its length. The result is the new entry and
that of the caller, or nothing where `gmtime` returns a null pointer. -/
def eplfFact (clock : Clock) (codePage : CodePage) (fact : List Byte) (len : Nat)
    (dir direntry : DirEntry) : Option (DirEntry × DirEntry) :=
  if len = 1 ∧ fact.head? = some 47 then some ({ dir with dir := true }, direntry)
  else if fact.head? = some 115 then
    some ({ dir with size := strntoi64 (fact.tail.take (len - 1)) }, direntry)
  else if fact.head? = some 109 then
    (gmtime clock (strntoi64 (fact.tail.take (len - 1)))).map fun tm =>
      ({ dir with date := timeTToDate tm dir.date }, direntry)
  else if len = 5 ∧ fact.head? = some 117 ∧ fact.tail.head? = some 112 then
    some (dir, { direntry with permissionstr := codePage.convert (fact.tail.tail.take (len - 2)) })
  else some (dir, direntry)

/-- The loop, of the text from the fact on and the number of characters before the tab. A comma
is looked for in all of the text. -/
def eplfLoop (clock : Clock) (codePage : CodePage) (fact : List Byte) (left : Nat)
    (dir direntry : DirEntry) : Option (DirEntry × DirEntry) :=
  if left = 0 then some (dir, direntry)
  else
    match fact.idxOf? 44 with
    | none => eplfFact clock codePage fact left dir direntry
    | some len =>
      (eplfFact clock codePage fact len dir direntry).bind fun (dir, direntry) =>
        if left ≤ len + 1 then some (dir, direntry)
        else eplfLoop clock codePage (fact.drop (len + 1)) (left - (len + 1)) dir direntry
termination_by left

/-- The inner result is nothing if the line is in another format, and the outer one if a null
pointer is used. -/
def parseAsEPLF (clock : Clock) (codePage : CodePage) (line : List Byte) (direntry : DirEntry) :
    Option (Option DirEntry) :=
  match line.idxOf? 9 with
  | none => some none
  | some tab =>
    let name := line.drop (tab + 1)
    if line.head? ≠ some 43 ∨ name = [] then some none
    else
      (eplfLoop clock codePage line.tail (tab - 1)
        { unsure := false, size := -2, name := codePage.convert name } direntry).map (some ·.1)

/-! ## Lines -/

inductive Fact
  | dir
  | size (digits : List Byte)
  | time (digits : List Byte)
  | permissions (digits : List Byte)
  | other (text : List Byte)

inductive FactKind
  | dir
  | size
  | time
  | permissions

namespace Fact

def text : Fact → List Byte
  | dir => [47]
  | size digits => 115 :: digits
  | time digits => 109 :: digits
  | permissions digits => 117 :: 112 :: digits
  | other text => text

def kind : Fact → Option FactKind
  | dir => some .dir
  | size _ => some .size
  | time _ => some .time
  | permissions _ => some .permissions
  | other _ => none

def WellFormed : Fact → Prop
  | dir => True
  | size digits | time digits => digits ≠ [] ∧ ∀ c ∈ digits, isDigitByte c = true
  | permissions digits => digits.length = 3 ∧ ∀ c ∈ digits, isDigitByte c = true
  | other text => text ≠ [47] ∧ text.head? ≠ some 115 ∧ text.head? ≠ some 109 ∧
    text.take 2 ≠ [117, 112] ∧ 44 ∉ text ∧ 9 ∉ text

end Fact

def eplfLine (facts : List Fact) (name : List Byte) : List Byte :=
  43 :: ended 44 (facts.map Fact.text) ++ 9 :: name

/-- The date is that of the minute in which the second lies, counted from the beginning of the
year 1970. -/
structure IsTimeOf (date : Date) (seconds : Nat) : Prop where
  isDate : ∃ year month day, IsDate year month day ∧ date.year = year ∧ date.month = month ∧
    date.day = day ∧ (dayNumber year month day - dayNumber 1970 1 1) * 86400 +
      date.hour * 3600 + date.minute * 60 = seconds / 60 * 60
  hour : 0 ≤ date.hour ∧ date.hour < 24
  minute : 0 ≤ date.minute ∧ date.minute < 60
  flags : date.hasdate = true ∧ date.hastime = true ∧ date.hasyear = true

/-- What is asked of `parseAsEPLF`. -/
structure EplfRight (codePage : CodePage) (facts : List Fact) (name : List Byte)
    (entry : DirEntry) : Prop where
  name : entry.name = codePage.convert name
  dir : entry.dir = true ↔ .dir ∈ facts
  size : ∀ digits, .size digits ∈ facts → entry.size = decimal digits
  time : ∀ digits, .time digits ∈ facts → IsTimeOf entry.date (decimal digits)
  permissions : ∀ digits, .permissions digits ∈ facts →
    entry.permissionstr = codePage.convert digits

variable {clock : Clock} {codePage : CodePage} {facts : List Fact} {name text digits : List Byte}
  {date : Date} {dir direntry : DirEntry} {time : Int} {n : Nat}

/-! ## Times -/

theorem dayNumber_epoch : dayNumber 1970 1 1 = 719163 := by
  rw [dayNumber, start_yearDays]
  rfl

theorem gmtime_spec (hpos : 0 ≤ time) (hle : time ≤ clock.last) (date : Date) :
    ∃ tm, gmtime clock time = some tm ∧ IsTimeOf (timeTToDate tm date) time.toNat := by
  have hlast := clock.last_lt
  have hbound : (time / 86400 + 719163).toNat ≤ dayNumber 9999 12 31 := by
    rw [dayNumber_last, start_yearDays]
    omega
  obtain ⟨year, month, day, hdecode, hdate, hnumber⟩ :=
    decodeDate_spec (by omega) hbound
  have hday : ((time / 86400 + 719163).toNat : Int) - dateDelta = time / 86400 + 25569 := by
    rw [dateDelta]
    omega
  rw [hday] at hdecode
  refine ⟨⟨year, month, day, time % 86400 / 3600, time % 3600 / 60⟩, ?_, ?_⟩
  · rw [gmtime, if_pos ⟨hpos, hle⟩, hdecode]
    rfl
  · refine ⟨⟨year, month, day, hdate, rfl, rfl, rfl, ?_⟩, ?_, ?_, rfl, rfl, rfl⟩
    · rw [hnumber, dayNumber_epoch]
      simp only [timeTToDate]
      omega
    · simp only [timeTToDate]
      omega
    · simp only [timeTToDate]
      omega

theorem IsTimeOf.minute_unique {n' : Nat} (h : IsTimeOf date n) (h' : IsTimeOf date n') :
    n / 60 = n' / 60 := by
  obtain ⟨year, month, day, -, hyear, hmonth, hday, hsum⟩ := h.isDate
  obtain ⟨year', month', day', -, hyear', hmonth', hday', hsum'⟩ := h'.isDate
  obtain rfl : year = year' := Int.natCast_inj.mp (hyear.symm.trans hyear')
  obtain rfl : month = month' := Int.natCast_inj.mp (hmonth.symm.trans hmonth')
  obtain rfl : day = day' := Int.natCast_inj.mp (hday.symm.trans hday')
  omega

/-! ## Facts -/

theorem strntoi64_digits (h : ∀ c ∈ digits, isDigitByte c = true) :
    strntoi64 digits = int64 (decimal digits) := by
  rw [strntoi64, takeWhile_eq_self_iff.mpr h, foldl_accumulate_zero h]

theorem isDigitByte_ne {c d : Byte} (hc : isDigitByte c = true) (hd : isDigitByte d = false) :
    c ≠ d := by
  rintro rfl
  exact Bool.false_ne_true (hd.symm.trans hc)

theorem Fact.WellFormed.notMem_text {fact : Fact} (h : fact.WellFormed) {sep : Byte}
    (hsep : sep = 44 ∨ sep = 9) : sep ∉ fact.text := by
  have hdigits : ∀ digits : List Byte, (∀ c ∈ digits, isDigitByte c = true) → sep ∉ digits := by
    intro digits hdigits hmem
    rcases hsep with rfl | rfl <;> exact isDigitByte_ne (hdigits _ hmem) rfl rfl
  have hletters : sep ∉ ([47, 115, 109, 117, 112] : List Byte) := by
    rcases hsep with rfl | rfl <;> decide
  simp only [mem_cons, not_or] at hletters
  cases fact with
  | dir => simpa [text] using hletters.1
  | size digits | time digits => simp [text, hletters, hdigits digits h.2]
  | permissions digits => simp [text, hletters, hdigits digits h.2]
  | other text => rcases hsep with rfl | rfl <;> simp [Fact.text, h.2]

/-- What a fact means to the parser. -/
def Fact.apply (clock : Clock) (codePage : CodePage) :
    DirEntry × DirEntry → Fact → Option (DirEntry × DirEntry)
  | (dir, direntry), .dir => some ({ dir with dir := true }, direntry)
  | (dir, direntry), .size digits => some ({ dir with size := int64 (decimal digits) }, direntry)
  | (dir, direntry), .time digits => (gmtime clock (int64 (decimal digits))).map fun tm =>
      ({ dir with date := timeTToDate tm dir.date }, direntry)
  | (dir, direntry), .permissions digits =>
    some (dir, { direntry with permissionstr := codePage.convert digits })
  | (dir, direntry), .other _ => some (dir, direntry)

theorem eplfFact_text {fact : Fact} (h : fact.WellFormed) (rest : List Byte) :
    eplfFact clock codePage (fact.text ++ 44 :: rest) fact.text.length dir direntry =
      fact.apply clock codePage (dir, direntry) := by
  cases fact with
  | dir => rfl
  | size digits =>
    simp [eplfFact, Fact.text, Fact.apply, strntoi64_digits h.2]
  | time digits =>
    simp [eplfFact, Fact.text, Fact.apply, strntoi64_digits h.2]
  | permissions digits =>
    simp [eplfFact, Fact.text, Fact.apply, h.1]
  | other text =>
    obtain ⟨hdir, hsize, htime, hpermissions, -, -⟩ := h
    match text with
    | [] => simp [eplfFact, Fact.text, Fact.apply]
    | [c] => simp_all [eplfFact, Fact.text, Fact.apply]
    | c :: d :: text => simp_all [eplfFact, Fact.text, Fact.apply]

/-- The loop goes through the facts one by one. -/
theorem eplfLoop_facts (h : ∀ fact ∈ facts, fact.WellFormed) (name : List Byte)
    (dir direntry : DirEntry) :
    eplfLoop clock codePage (ended 44 (facts.map Fact.text) ++ 9 :: name)
        (ended 44 (facts.map Fact.text)).length dir direntry =
      facts.foldlM (Fact.apply clock codePage) (dir, direntry) := by
  induction facts generalizing dir direntry with
  | nil =>
    rw [eplfLoop]
    rfl
  | cons fact facts ih =>
    obtain ⟨hfact, hfacts⟩ := forall_mem_cons.mp h
    rw [map_cons, ended_cons, append_assoc, cons_append, eplfLoop,
      if_neg (by simp), idxOf?_segment (hfact.notMem_text (.inl rfl)), foldlM_cons]
    dsimp only
    rw [eplfFact_text hfact]
    refine congrArg _ (funext fun (dir, direntry) => ?_)
    dsimp only
    cases facts with
    | nil => simp
    | cons fact' facts =>
      rw [if_neg (by simp), ← ih hfacts]
      congr 1
      · simp
      · simp; omega

theorem parseAsEPLF_line (h : ∀ fact ∈ facts, fact.WellFormed) (hname : name ≠ [])
    (direntry : DirEntry) :
    parseAsEPLF clock codePage (eplfLine facts name) direntry =
      (facts.foldlM (Fact.apply clock codePage)
        ({ unsure := false, size := -2, name := codePage.convert name }, direntry)).map
          (some ·.1) := by
  have htab : 9 ∉ 43 :: ended 44 (facts.map Fact.text) := by
    simp only [ended, mem_cons, mem_flatMap, mem_map, mem_append]
    rintro (hplus | ⟨_, ⟨fact, hfact, rfl⟩, hmem | hcomma⟩)
    · cases hplus
    · exact (h fact hfact).notMem_text (.inr rfl) hmem
    · simp at hcomma
  have hdrop : (43 :: (ended 44 (facts.map Fact.text) ++ 9 :: name)).drop
      ((43 :: ended 44 (facts.map Fact.text)).length + 1) = name := by
    simp
  unfold parseAsEPLF eplfLine
  rw [idxOf?_segment htab, cons_append]
  dsimp only
  rw [hdrop, if_neg (by simp [hname]), length_cons, Nat.add_sub_cancel, tail_cons,
    eplfLoop_facts h]

/-! ## What the entry holds

Every field is set by the facts of one kind, and the other ones keep it.
-/

section
variable {β : Type} {field : DirEntry → β} {state state' : DirEntry × DirEntry} {fact : Fact}

theorem foldlM_keeps
    (hkeep : ∀ fact ∈ facts, ∀ s s', Fact.apply clock codePage s fact = some s' →
      field s'.1 = field s.1)
    (hrun : facts.foldlM (Fact.apply clock codePage) state = some state') :
    field state'.1 = field state.1 := by
  induction facts generalizing state with
  | nil => rw [Option.some.inj hrun]
  | cons fact facts ih =>
    obtain ⟨hfact, hfacts⟩ := forall_mem_cons.mp hkeep
    rw [foldlM_cons] at hrun
    obtain ⟨middle, hstep, hrest⟩ := Option.bind_eq_some_iff.mp hrun
    rw [ih hfacts hrest, hfact _ _ hstep]

/-- The field is what the only fact of a kind makes of it. -/
theorem foldlM_sets {P : β → Prop} (hsingle : (facts.filterMap Fact.kind).Nodup)
    (hmem : fact ∈ facts) (hkind : fact.kind ≠ none)
    (hkeep : ∀ other : Fact, other.kind ≠ fact.kind → ∀ s s',
      Fact.apply clock codePage s other = some s' → field s'.1 = field s.1)
    (hset : ∀ s s', Fact.apply clock codePage s fact = some s' → P (field s'.1))
    (hrun : facts.foldlM (Fact.apply clock codePage) state = some state') :
    P (field state'.1) := by
  obtain ⟨front, back, rfl⟩ := append_of_mem hmem
  rw [List.foldlM_append] at hrun
  obtain ⟨before, -, hrun⟩ := Option.bind_eq_some_iff.mp hrun
  rw [foldlM_cons] at hrun
  obtain ⟨middle, hstep, hrest⟩ := Option.bind_eq_some_iff.mp hrun
  have hback : ∀ other ∈ back, other.kind ≠ fact.kind := by
    intro other hother heq
    obtain ⟨kind, hsome⟩ := Option.ne_none_iff_exists'.mp hkind
    rw [filterMap_append, nodup_append, filterMap_cons_some hsome] at hsingle
    exact (nodup_cons.mp hsingle.2.1).1
      (mem_filterMap.mpr ⟨other, hother, heq.trans hsome⟩)
  rw [foldlM_keeps (fun other hother => hkeep other (hback other hother)) hrest]
  exact hset _ _ hstep

/-- What a fact does to the new entry. -/
def Fact.Updates (clock : Clock) (dir dir' : DirEntry) : Fact → Prop
  | .dir => dir' = { dir with dir := true }
  | .size digits => dir' = { dir with size := int64 (decimal digits) }
  | .time digits => ∃ tm, gmtime clock (int64 (decimal digits)) = some tm ∧
      dir' = { dir with date := timeTToDate tm dir.date }
  | .permissions _ | .other _ => dir' = dir

theorem apply_inv (h : Fact.apply clock codePage state fact = some state') :
    fact.Updates clock state.1 state'.1 := by
  obtain ⟨dir, direntry⟩ := state
  cases fact with
  | dir | size digits | permissions digits | other text =>
    rw [← Option.some.inj h]
    rfl
  | time digits =>
    rw [Fact.apply] at h
    obtain ⟨tm, htm, heq⟩ := Option.map_eq_some_iff.mp h
    exact ⟨tm, htm, heq ▸ rfl⟩

/-- What a fact leaves as it is. -/
structure Fact.Keeps (fact : Fact) (entry entry' : DirEntry) : Prop where
  name : entry'.name = entry.name
  permissionstr : entry'.permissionstr = entry.permissionstr
  dir : fact.kind ≠ some .dir → entry'.dir = entry.dir
  size : fact.kind ≠ some .size → entry'.size = entry.size
  date : fact.kind ≠ some .time → entry'.date = entry.date

theorem apply_keeps (h : Fact.apply clock codePage state fact = some state') :
    fact.Keeps state.1 state'.1 := by
  have hinv := apply_inv h
  cases fact with
  | dir | size digits | permissions digits | other text =>
    rw [hinv]
    constructor <;> simp [Fact.kind]
  | time digits =>
    obtain ⟨tm, -, heq⟩ := hinv
    rw [heq]
    constructor <;> simp [Fact.kind]

/-- Only a time can stop the loop. -/
theorem exists_foldlM
    (h : ∀ digits, .time digits ∈ facts → (gmtime clock (int64 (decimal digits))).isSome = true)
    (state : DirEntry × DirEntry) :
    ∃ state', facts.foldlM (Fact.apply clock codePage) state = some state' := by
  induction facts generalizing state with
  | nil => exact ⟨state, rfl⟩
  | cons fact facts ih =>
    have hstep : ∃ middle, Fact.apply clock codePage state fact = some middle := by
      cases fact with
      | dir | size digits | permissions digits | other text => exact ⟨_, rfl⟩
      | time digits =>
        obtain ⟨tm, htm⟩ := Option.isSome_iff_exists.mp (h digits mem_cons_self)
        simp only [Fact.apply, htm, Option.map_some]
        exact ⟨_, rfl⟩
    obtain ⟨middle, hmiddle⟩ := hstep
    rw [foldlM_cons, hmiddle]
    exact ih (fun digits hmem => h digits (mem_cons_of_mem _ hmem)) middle

variable (hrun : facts.foldlM (Fact.apply clock codePage) state = some state')
include hrun

theorem run_name : state'.1.name = state.1.name ∧ state'.1.permissionstr = state.1.permissionstr :=
  ⟨foldlM_keeps (fun _ _ _ _ h => (apply_keeps h).name) hrun,
    foldlM_keeps (fun _ _ _ _ h => (apply_keeps h).permissionstr) hrun⟩

variable (hsingle : (facts.filterMap Fact.kind).Nodup)
include hsingle

theorem run_dir (hdir : state.1.dir = false) : state'.1.dir = true ↔ .dir ∈ facts := by
  constructor
  · intro htrue
    by_contra hnot
    have hkeep : state'.1.dir = state.1.dir := by
      refine foldlM_keeps (fun fact hfact _ _ h => (apply_keeps h).dir ?_) hrun
      intro hkind
      cases fact with
      | dir => exact hnot hfact
      | size digits | time digits | permissions digits | other text => cases hkind
    rw [hkeep, hdir] at htrue
    cases htrue
  · intro hmem
    refine foldlM_sets (P := (· = true)) hsingle hmem (by simp [Fact.kind])
      (fun _ hkind _ _ h => (apply_keeps h).dir hkind) (fun _ _ h => ?_) hrun
    rw [apply_inv h]

theorem run_size (hmem : .size digits ∈ facts) : state'.1.size = int64 (decimal digits) := by
  refine foldlM_sets (P := (· = _)) hsingle hmem (by simp [Fact.kind])
    (fun _ hkind _ _ h => (apply_keeps h).size hkind) (fun _ _ h => ?_) hrun
  rw [apply_inv h]

theorem run_date (hmem : .time digits ∈ facts) : ∃ tm date,
    gmtime clock (int64 (decimal digits)) = some tm ∧ state'.1.date = timeTToDate tm date := by
  refine foldlM_sets (P := fun d => ∃ tm date, gmtime clock (int64 (decimal digits)) = some tm ∧
    d = timeTToDate tm date) hsingle hmem (by simp [Fact.kind])
    (fun _ hkind _ _ h => (apply_keeps h).date hkind) (fun _ _ h => ?_) hrun
  obtain ⟨tm, htm, heq⟩ := apply_inv h
  rw [heq]
  exact ⟨tm, _, htm, rfl⟩

end

/-! ## The numbers -/

theorem int64_eq_iff : int64 n = n ↔ n < 2 ^ 63 := by
  constructor
  · intro heq
    have hlt : int64 n < (2 ^ 64 + 1) / 2 := Int.bmod_lt (by decide)
    omega
  · exact int64_of_lt

/-- A number that does not fit is read as one that is far away. -/
theorem int64_far (h : int64 n ≠ n) : int64 n + 2 ^ 63 ≤ n := by
  have hlt : int64 n < (2 ^ 64 + 1) / 2 := Int.bmod_lt (by decide)
  have hmod : int64 n % 2 ^ 64 = n % 2 ^ 64 := Int.bmod_emod
  omega

theorem gmtime_some {tm : Tm} (h : gmtime clock time = some tm) : 0 ≤ time ∧ time ≤ clock.last := by
  unfold gmtime at h
  split at h
  next hrange => exact hrange
  next => cases h

/-- A time is read as it is meant just when it is one that `gmtime` knows. -/
theorem isTimeOf_iff {tm : Tm} (htm : gmtime clock (int64 n) = some tm) :
    IsTimeOf (timeTToDate tm date) n ↔ n ≤ clock.last := by
  obtain ⟨hpos, hle⟩ := gmtime_some htm
  obtain ⟨tm', htm', htime⟩ := gmtime_spec hpos hle date
  obtain rfl : tm = tm' := Option.some.inj (htm.symm.trans htm')
  have hlast := clock.last_lt
  constructor
  · intro h
    have hminute := h.minute_unique htime
    by_cases heq : int64 n = n
    · omega
    · have hfar := int64_far heq
      omega
  · intro h
    rw [int64_of_lt (by omega)] at htime
    exact htime

/-- A line is read as it is meant just when it has no permissions and its numbers fit. -/
theorem parseAsEPLF_right_iff (hfacts : ∀ fact ∈ facts, fact.WellFormed)
    (hsingle : (facts.filterMap Fact.kind).Nodup) (hname : name ≠ []) (direntry : DirEntry) :
    (∃ entry, parseAsEPLF clock codePage (eplfLine facts name) direntry = some (some entry) ∧
        EplfRight codePage facts name entry) ↔
      (∀ digits, .size digits ∈ facts → decimal digits < 2 ^ 63) ∧
      (∀ digits, .time digits ∈ facts → decimal digits ≤ clock.last) ∧
      ∀ digits, .permissions digits ∉ facts := by
  rw [parseAsEPLF_line hfacts hname]
  constructor
  · rintro ⟨entry, hparse, hright⟩
    obtain ⟨state, hrun, hentry⟩ := Option.map_eq_some_iff.mp hparse
    obtain rfl : state.1 = entry := Option.some.inj hentry
    refine ⟨fun digits hmem => ?_, fun digits hmem => ?_, fun digits hmem => ?_⟩
    · rw [← int64_eq_iff, ← run_size hrun hsingle hmem]
      exact hright.size digits hmem
    · obtain ⟨tm, date, htm, hdate⟩ := run_date hrun hsingle hmem
      rw [← isTimeOf_iff htm, ← hdate]
      exact hright.time digits hmem
    · have hempty := (run_name hrun).2.symm.trans (hright.permissions digits hmem)
      obtain ⟨hlength, hdigits⟩ := hfacts _ hmem
      rw [codePage.ascii digits] at hempty
      · rw [← List.length_map (·.toUInt16), ← hempty] at hlength
        cases hlength
      · intro c hc
        have hdigit := hdigits c hc
        simp only [isDigitByte, Bool.and_eq_true, decide_eq_true_eq] at hdigit
        exact UInt8.lt_of_le_of_lt hdigit.2 (by decide)
  · rintro ⟨hsize, htime, hpermissions⟩
    have hlast := clock.last_lt
    have hknown : ∀ digits, .time digits ∈ facts →
        (gmtime clock (int64 (decimal digits))).isSome = true := by
      intro digits hmem
      have hle := htime digits hmem
      rw [int64_of_lt (by omega)]
      obtain ⟨tm, htm, -⟩ := gmtime_spec (Int.natCast_nonneg _) (Int.ofNat_le.mpr hle) {}
      rw [htm]
      rfl
    obtain ⟨state, hrun⟩ := exists_foldlM hknown _
    refine ⟨state.1, by rw [hrun]; rfl, (run_name hrun).1, run_dir hrun hsingle rfl, ?_, ?_, ?_⟩
    · intro digits hmem
      rw [run_size hrun hsingle hmem, int64_of_lt (hsize digits hmem)]
    · intro digits hmem
      obtain ⟨tm, date, htm, hdate⟩ := run_date hrun hsingle hmem
      rw [hdate, isTimeOf_iff htm]
      exact htime digits hmem
    · intro digits hmem
      exact absurd hmem (hpermissions digits)

/-- The times up to the end of the year 3000. -/
def clock3000 : Clock := ⟨32535215999, by decide⟩

theorem eplf_size_and_dir :
    ∃ entry, parseAsEPLF clock3000 latin1 (eplfLine [.size [49], .dir] [97]) {} =
      some (some entry) ∧ EplfRight latin1 [.size [49], .dir] [97] entry := by
  refine (parseAsEPLF_right_iff ?_ (by simp [Fact.kind]) (by decide) {}).mpr ⟨?_, ?_, ?_⟩
  · exact List.forall_mem_cons.mpr ⟨⟨by decide, List.all_eq_true.mp rfl⟩,
      List.forall_mem_cons.mpr ⟨trivial, by simp⟩⟩
  · simp [decimal]
  · simp
  · simp

/-- The permissions of a line with no other fact are lost. -/
theorem eplf_permissions_lost :
    ¬ ∃ entry, parseAsEPLF clock3000 latin1 (eplfLine [.permissions [54, 52, 52]] [102]) {} =
        some (some entry) ∧ EplfRight latin1 [.permissions [54, 52, 52]] [102] entry := by
  rintro ⟨entry, hparse, hright⟩
  have hfacts : ∀ fact ∈ [Fact.permissions [54, 52, 52]], fact.WellFormed :=
    List.forall_mem_cons.mpr ⟨⟨rfl, List.all_eq_true.mp rfl⟩, by simp⟩
  rw [parseAsEPLF_line hfacts (by decide)] at hparse
  have hentry := Option.some.inj (Option.some.inj hparse)
  have hpermissions := hright.permissions _ List.mem_cons_self
  rw [← hentry] at hpermissions
  cases hpermissions

end NetBox.Ftp
