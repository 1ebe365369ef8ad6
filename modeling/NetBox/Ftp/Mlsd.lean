import NetBox.Ftp.Entry
import NetBox.Lib.Segments
import NetBox.Remote.Listing

/-! # Lines of MLSD

A line is a list of facts, each with a semicolon behind it, a blank and a name. `parseAsMlsd`
goes through the facts and keeps what they say. The order of the facts is undefined, but a
creation date counts as long as there is no other date, and a date without a time keeps the
mark that the seconds are known.
-/
namespace NetBox.Ftp
open Base.Text Lib.Segments Remote.Listing List

/-- Facts of which the text is kept. -/
inductive TextFact
  | perm | mode | owner | group | uid | gid | ownername | groupname
deriving DecidableEq

inductive MlsdName
  | type
  | size
  | modify
  | create
  | text (fact : TextFact)
deriving DecidableEq

def mlsdNames : List (UnicodeString × MlsdName) :=
  [(wstr "type", .type), (wstr "size", .size), (wstr "modify", .modify), (wstr "create", .create),
    (wstr "perm", .text .perm), (wstr "unix.mode", .text .mode), (wstr "unix.owner", .text .owner),
    (wstr "unix.user", .text .owner), (wstr "unix.group", .text .group),
    (wstr "unix.uid", .text .uid), (wstr "unix.gid", .text .gid),
    (wstr "unix.ownername", .text .ownername), (wstr "unix.groupname", .text .groupname)]

/-- What the type says. -/
structure Kind where
  name : UnicodeString := []
  dir : Bool := false
  link : Bool := false
  linkTarget : UnicodeString := []
deriving DecidableEq, Repr

/-- The fields of the entry, and the texts that are kept for them. -/
structure MlsdState where
  kind : Kind := {}
  size : Int := 0
  date : Date := {}
  texts : TextFact → UnicodeString := fun _ => []

/-- A link, with what stands behind a colon as its target. -/
def setLink (kind : Kind) (value : UnicodeString) (len : Nat) : Kind :=
  { kind with
    dir := true, link := true
    linkTarget := if value.length > len + 1 ∧ value[len]? = some colon then value.drop (len + 1)
      else kind.linkTarget }

def setKind (t : TextApi) (kind : Kind) (value : UnicodeString) : Kind :=
  if t.sameText value (wstr "dir") then { kind with dir := true }
  else if t.sameText (value.take 15) (wstr "OS.unix=symlink") then setLink kind value 15
  else if t.sameText (value.take 13) (wstr "OS.unix=slink") then setLink kind value 13
  else if t.sameText value (wstr "cdir") then { kind with name := wstr ".", dir := true }
  else if t.sameText value (wstr "pdir") then { kind with name := wstr "..", dir := true }
  else if t.sameText value (wstr "file") then { kind with dir := false }
  else kind

def mlsdSize (value : UnicodeString) : Option Int :=
  if value.all isDigit then
    some (value.foldl (fun size ch => int64 (int64 (size * 10) + (ch.toNat - 48 : Int))) 0)
  else none

/-- The numbers that `swscanf` reads. -/
def scanFields : List Nat → UnicodeString → List Int
  | [], _ => []
  | width :: widths, str =>
    match scanNumber width str with
    | none => []
    | some (n, str) => n :: scanFields widths str

/-- The fields of a date and whether it has a time. A first attempt that fails has set the fields
as far as it got. -/
def mlsdTime (value : UnicodeString) : Option (List Int × Bool) :=
  let fields := scanFields [4, 2, 2, 2, 2, 2] value
  if fields.length = 6 then some (fields, true)
  else if (scanFields [4, 2, 2] value).length = 3 then some (fields, false)
  else none

def setDate (date : Date) (fields : List Int) (time : Bool) : Date where
  year := fields.getD 0 0
  month := fields.getD 1 0
  day := fields.getD 2 0
  hour := fields.getD 3 0
  minute := fields.getD 4 0
  second := fields.getD 5 0
  hasdate := true
  hastime := time
  hasseconds := time || date.hasseconds
  hasyear := true
  utc := true

def parseMlsdDateTime (value : UnicodeString) (date : Date) : Option Date :=
  (mlsdTime value).map fun (fields, time) => setDate date fields time

def MlsdState.applyFact (t : TextApi) (state : MlsdState) (name : Option MlsdName)
    (value : UnicodeString) : Option MlsdState :=
  match name with
  | none => some state
  | some .type => some { state with kind := setKind t state.kind value }
  | some .size => (mlsdSize value).map fun size => { state with size }
  | some .modify => (parseMlsdDateTime value state.date).map fun date => { state with date }
  | some .create =>
    if state.date.hasdate then some state
    else (parseMlsdDateTime value state.date).map fun date => { state with date }
  | some (.text fact) => some { state with texts := Function.update state.texts fact value }

/-- The loop over the facts. -/
def mlsdLoop (t : TextApi) (facts : UnicodeString) (state : MlsdState) : Option MlsdState :=
  if facts = [] then some state
  else
    let delim := facts.idxOf? semicolon
    let len := delim.getD facts.length
    if delim.any (· < 3) then none
    else
      match facts.idxOf? 61 with
      | none => none
      | some pos =>
        if pos < 1 ∨ pos > len then none
        else
          (state.applyFact t (mlsdNames.lookup (t.lowerCase (facts.take pos)))
            ((facts.drop (pos + 1)).take (len - pos - 1))).bind
              (mlsdLoop t (facts.drop (len + 1)))
termination_by facts.length
decreasing_by
  rw [length_drop]
  have := length_pos_of_ne_nil ‹_›
  omega

def firstText (a b c : UnicodeString) : UnicodeString :=
  if a ≠ [] then a else if b ≠ [] then b else c

def MlsdState.entry (state : MlsdState) (name : UnicodeString) : DirEntry where
  unsure := false
  name
  permissionstr := state.texts .mode
  humanpermstr := state.texts .perm
  owner := firstText (state.texts .ownername) (state.texts .owner) (state.texts .uid)
  group := firstText (state.texts .groupname) (state.texts .group) (state.texts .gid)
  size := state.size
  dir := state.kind.dir
  link := state.kind.link
  date := state.date
  linkTarget := state.kind.linkTarget

def isBlank (c : Byte) : Bool := c == 32 || c == 9

/-- `GetNextToken` of the first type: the token and the line behind it. -/
def getNextToken (line : List Byte) : Option (List Byte × List Byte) :=
  match line.dropWhile isBlank with
  | [] => none
  | line => some (line.takeWhile fun c => !isBlank c, line.dropWhile fun c => !isBlank c)

/-- `parseAsMlsd` with a new entry and outside of MLST. The facts and the name are converted by
code pages of their own. -/
def parseAsMlsd (t : TextApi) (codePage names : CodePage) (line : List Byte) : Option DirEntry := do
  let (token, rest) ← getNextToken line
  if codePage.convert token = [] then none
  else
    let state ← mlsdLoop t (codePage.convert token) {}
    if rest.head? ≠ some 32 then none
    else some (state.entry
      (if state.kind.name = [] then names.convert rest.tail else state.kind.name))

/-! ## Facts -/

/-- The name and the value of a fact. -/
def splitFact (t : TextApi) (fact : UnicodeString) : Option (Option MlsdName × UnicodeString) :=
  if fact.length < 3 then none
  else
    match fact.idxOf? 61 with
    | none => none
    | some pos =>
      if pos < 1 then none
      else some (mlsdNames.lookup (t.lowerCase (fact.take pos)), fact.drop (pos + 1))

def factStep (t : TextApi) (state : Option MlsdState) (fact : UnicodeString) : Option MlsdState :=
  state.bind fun state => (splitFact t fact).bind fun (name, value) => state.applyFact t name value

variable {t : TextApi} {fact value value' : UnicodeString} {facts : List UnicodeString}
  {state state' : MlsdState} {name name' : Option MlsdName}

theorem foldl_factStep_none (facts : List UnicodeString) : facts.foldl (factStep t) none = none := by
  induction facts with
  | nil => rfl
  | cons fact facts ih => exact ih

/-- The first equals sign is looked for in all of the facts, but it has to be in the first one. -/
theorem mlsdLoop_cons (hfact : semicolon ∉ fact) (rest : UnicodeString) (state : MlsdState) :
    mlsdLoop t (fact ++ semicolon :: rest) state =
      (factStep t (some state) fact).bind (mlsdLoop t rest) := by
  have hrest : (fact ++ semicolon :: rest).drop (fact.length + 1) = rest := by simp
  rw [mlsdLoop, if_neg (by simp), idxOf?_segment hfact]
  simp only [factStep, splitFact, Option.any_some, Option.getD_some, Option.bind_some, hrest,
    decide_eq_true_eq]
  by_cases hshort : fact.length < 3
  · rw [if_pos hshort, if_pos hshort]
    rfl
  rw [if_neg hshort, if_neg hshort]
  by_cases hmem : (61 : WChar) ∈ fact
  · obtain ⟨left, right, rfl, hleft⟩ := eq_append_cons_of_mem hmem
    have hall : left ++ 61 :: right ++ semicolon :: rest =
        left ++ 61 :: (right ++ semicolon :: rest) := by simp
    have hlength : (left ++ 61 :: right).length - left.length - 1 = right.length := by simp
    rw [idxOf?_segment hleft, hall, idxOf?_segment hleft]
    dsimp only
    rw [hlength]
    have hpos : ¬ left.length > (left ++ 61 :: right).length := by simp
    simp only [hpos, or_false]
    split
    next => rfl
    next => simp
  · rw [idxOf?_eq_none_iff.mpr hmem]
    cases hpos : (fact ++ semicolon :: rest).idxOf? 61 with
    | none => rfl
    | some pos =>
      have hlarge : pos > fact.length := by
        obtain ⟨hlt, hget, -⟩ := idxOf?_eq_some_iff.mp hpos
        rcases Nat.lt_trichotomy pos fact.length with hless | rfl | hlarge
        · rw [getElem_append_left hless] at hget
          exact absurd (hget ▸ getElem_mem _) hmem
        · simp [semicolon] at hget
        · exact hlarge
      simp [hlarge]

theorem mlsdLoop_ended (hfacts : ∀ fact ∈ facts, semicolon ∉ fact) (state : MlsdState) :
    mlsdLoop t (ended semicolon facts) state = facts.foldl (factStep t) (some state) := by
  induction facts generalizing state with
  | nil =>
    rw [ended_nil, mlsdLoop]
    rfl
  | cons fact facts ih =>
    obtain ⟨hfact, hfacts⟩ := forall_mem_cons.mp hfacts
    rw [ended_cons, mlsdLoop_cons hfact, foldl_cons]
    cases factStep t (some state) fact with
    | none => exact (foldl_factStep_none facts).symm
    | some state => exact ih hfacts state

/-- Facts of different names change different fields, but for the two dates. -/
theorem applyFact_comm (hne : name = none ∨ name ≠ name')
    (hdates : ¬ (name = some .modify ∧ name' = some .create))
    (hdates' : ¬ (name = some .create ∧ name' = some .modify)) :
    (state.applyFact t name value).bind (·.applyFact t name' value') =
      (state.applyFact t name' value').bind (·.applyFact t name value) := by
  rcases name with _ | (_ | _ | _ | _ | fact) <;>
    rcases name' with _ | (_ | _ | _ | _ | fact') <;>
      simp_all [MlsdState.applyFact, parseMlsdDateTime]
  case some.text.some.text => exact Function.update_comm hne _ _ _
  -- what is left is a size or a date, which may be malformed
  all_goals
    cases mlsdSize value <;> cases mlsdSize value' <;> cases mlsdTime value <;>
      cases mlsdTime value' <;> cases h : state.date.hasdate <;> simp [h]

/-! ## What a fact can do wrong -/

/-- The name of a fact that the parser knows. -/
def factName (t : TextApi) (fact : UnicodeString) : Option MlsdName :=
  (splitFact t fact).bind (·.1)

/-- The fact does not make the line be rejected, but for a creation date. -/
def Acceptable (t : TextApi) (fact : UnicodeString) : Prop :=
  ∃ name value, splitFact t fact = some (name, value) ∧
    (name = some .size → (mlsdSize value).isSome = true) ∧
    (name = some .modify → (mlsdTime value).isSome = true)

/-- The creation date is malformed, or it has a time and the other date has none. -/
def DatesClash (modify create : UnicodeString) : Prop :=
  mlsdTime create = none ∨
    (∃ fields, mlsdTime create = some (fields, true)) ∧ ∃ fields, mlsdTime modify = some (fields, false)

/-- The line would be accepted, and it has two dates that clash. -/
def MlsdClash (t : TextApi) (facts : List UnicodeString) : Prop :=
  (∀ fact ∈ facts, Acceptable t fact) ∧
  ∃ first ∈ facts, ∃ second ∈ facts, ∃ modify create,
    splitFact t first = some (some .modify, modify) ∧
    splitFact t second = some (some .create, create) ∧ DatesClash modify create

theorem setDate_setDate (date : Date) (fields fields' : List Int) {time time' : Bool}
    (h : time' = true → time = true) :
    setDate (setDate date fields' time') fields time = setDate date fields time := by
  cases time <;> cases time' <;> simp_all [setDate]

/-- The two dates may change places if they do not clash. -/
theorem applyFact_dates_comm (hmodify : (mlsdTime value).isSome = true)
    (hclash : ¬ DatesClash value value') :
    (state.applyFact t (some .modify) value).bind (·.applyFact t (some .create) value') =
      (state.applyFact t (some .create) value').bind (·.applyFact t (some .modify) value) := by
  obtain ⟨⟨fields, time⟩, htime⟩ := Option.isSome_iff_exists.mp hmodify
  obtain ⟨hcreate, htimes⟩ := not_or.mp hclash
  obtain ⟨⟨fields', time'⟩, htime'⟩ := Option.ne_none_iff_exists'.mp hcreate
  have hle : time' = true → time = true := by
    rintro rfl
    by_contra hfalse
    exact htimes ⟨⟨fields', htime'⟩, fields, by rw [htime, Bool.eq_false_iff.mpr hfalse]⟩
  have hsame := setDate_setDate state.date fields fields' hle
  simp only [MlsdState.applyFact, parseMlsdDateTime, htime, htime', Option.map_some,
    Option.bind_some, setDate]
  cases state.date.hasdate <;> simp_all [setDate]

theorem factStep_comm {fact' : UnicodeString} (state : Option MlsdState)
    (hname : factName t fact = none ∨ factName t fact ≠ factName t fact')
    (hdates : ∀ modify create, splitFact t fact = some (some .modify, modify) →
      splitFact t fact' = some (some .create, create) →
        (mlsdTime modify).isSome = true ∧ ¬ DatesClash modify create)
    (hdates' : ∀ modify create, splitFact t fact' = some (some .modify, modify) →
      splitFact t fact = some (some .create, create) →
        (mlsdTime modify).isSome = true ∧ ¬ DatesClash modify create) :
    factStep t (factStep t state fact) fact' = factStep t (factStep t state fact') fact := by
  cases state with
  | none => rfl
  | some state =>
    simp only [factStep, Option.bind_some]
    cases hsplit : splitFact t fact with
    | none => simp
    | some first =>
      cases hsplit' : splitFact t fact' with
      | none => simp
      | some second =>
        obtain ⟨name, value⟩ := first
        obtain ⟨name', value'⟩ := second
        simp only [factName, hsplit, hsplit', Option.bind_some] at hname ⊢
        by_cases hmc : name = some .modify ∧ name' = some .create
        · obtain ⟨rfl, rfl⟩ := hmc
          obtain ⟨htime, hclash⟩ := hdates value value' hsplit hsplit'
          exact applyFact_dates_comm htime hclash
        by_cases hcm : name = some .create ∧ name' = some .modify
        · obtain ⟨rfl, rfl⟩ := hcm
          obtain ⟨htime, hclash⟩ := hdates' value' value hsplit' hsplit
          exact (applyFact_dates_comm htime hclash).symm
        · exact applyFact_comm hname hmc hcm

theorem factName_ne (hnames : (facts.filterMap (factName t)).Nodup) {fact' : UnicodeString}
    (hmem : fact ∈ facts) (hmem' : fact' ∈ facts) (hne : fact ≠ fact') :
    factName t fact = none ∨ factName t fact ≠ factName t fact' := by
  let R : UnicodeString → UnicodeString → Prop := fun first second =>
    ∀ n, factName t first = some n → ∀ n', factName t second = some n' → n ≠ n'
  have hsymm : Std.Symm R := ⟨fun _ _ h n hn n' hn' => (h n' hn' n hn).symm⟩
  have hpairs : facts.Pairwise R := pairwise_filterMap.mp hnames
  cases hname : factName t fact with
  | none => exact .inl rfl
  | some n => exact .inr fun heq => hpairs.forall hmem hmem' hne n hname n heq.symm rfl

/-- If no dates clash the order of the facts does not matter. -/
theorem foldl_factStep_perm {facts' : List UnicodeString}
    (hnames : (facts.filterMap (factName t)).Nodup) (hall : ∀ fact ∈ facts, Acceptable t fact)
    (hclash : ¬ MlsdClash t facts) (hperm : facts'.Perm facts) (state : Option MlsdState) :
    facts'.foldl (factStep t) state = facts.foldl (factStep t) state := by
  have hdates : ∀ first ∈ facts, ∀ second ∈ facts, ∀ modify create,
      splitFact t first = some (some .modify, modify) →
      splitFact t second = some (some .create, create) →
        (mlsdTime modify).isSome = true ∧ ¬ DatesClash modify create := by
    intro first hfirst second hsecond modify create hmodify hcreate
    refine ⟨?_, fun h => hclash ⟨hall, first, hfirst, second, hsecond, modify, create, hmodify,
      hcreate, h⟩⟩
    obtain ⟨name, value, hsplit, -, htime⟩ := hall first hfirst
    rw [hmodify] at hsplit
    cases hsplit
    exact htime rfl
  refine (hperm.symm.foldl_eq' (fun x hx y hy z => ?_) state).symm
  by_cases hxy : x = y
  · rw [hxy]
  · exact factStep_comm z (factName_ne hnames hx hy hxy) (hdates x hx y hy) (hdates y hy x hx)

theorem factStep_not_acceptable (h : ¬ Acceptable t fact) (state : Option MlsdState) :
    factStep t state fact = none := by
  by_contra hsome
  obtain ⟨state', hstep⟩ := Option.ne_none_iff_exists'.mp hsome
  obtain ⟨state, -, hstep⟩ := Option.bind_eq_some_iff.mp hstep
  obtain ⟨⟨name, value⟩, hsplit, hstep⟩ := Option.bind_eq_some_iff.mp hstep
  refine h ⟨name, value, hsplit, ?_, ?_⟩
  · rintro rfl
    simp only [MlsdState.applyFact, Option.map_eq_some_iff] at hstep
    obtain ⟨size, hsize, -⟩ := hstep
    rw [hsize]
    rfl
  · rintro rfl
    simp only [MlsdState.applyFact, parseMlsdDateTime, Option.map_eq_some_iff] at hstep
    obtain ⟨date, ⟨fields, hfields, -⟩, -⟩ := hstep
    rw [hfields]
    rfl

theorem foldl_not_acceptable (hmem : fact ∈ facts) (h : ¬ Acceptable t fact)
    (state : Option MlsdState) : facts.foldl (factStep t) state = none := by
  obtain ⟨front, back, rfl⟩ := append_of_mem hmem
  rw [foldl_append, foldl_cons, factStep_not_acceptable h, foldl_factStep_none]

theorem factStep_some (hstep : factStep t (some state) fact = some state') :
    ∃ name value, splitFact t fact = some (name, value) ∧
      state.applyFact t name value = some state' := by
  rw [factStep, Option.bind_some] at hstep
  obtain ⟨⟨name, value⟩, hsplit, hstep⟩ := Option.bind_eq_some_iff.mp hstep
  exact ⟨name, value, hsplit, hstep⟩

/-- What holds for the state after every fact holds after all of them. -/
theorem foldl_invariant {P : MlsdState → Prop}
    (hstep : ∀ fact ∈ facts, ∀ s s', P s → factStep t (some s) fact = some s' → P s')
    (hstart : P state) (hrun : facts.foldl (factStep t) (some state) = some state') : P state' := by
  induction facts generalizing state with
  | nil =>
    cases hrun
    exact hstart
  | cons fact facts ih =>
    obtain ⟨hfact, hfacts⟩ := forall_mem_cons.mp hstep
    rw [foldl_cons] at hrun
    cases hnext : factStep t (some state) fact with
    | none =>
      rw [hnext, foldl_factStep_none] at hrun
      cases hrun
    | some middle =>
      rw [hnext] at hrun
      exact ih hfacts (hfact _ _ hstart hnext) hrun

/-- Facts that say nothing about the date. -/
theorem exists_foldl_dateless (hall : ∀ fact ∈ facts, Acceptable t fact)
    (hdates : ∀ fact ∈ facts, factName t fact ≠ some .modify ∧ factName t fact ≠ some .create)
    (state : MlsdState) :
    ∃ state', facts.foldl (factStep t) (some state) = some state' ∧ state'.date = state.date := by
  induction facts generalizing state with
  | nil => exact ⟨state, rfl, rfl⟩
  | cons fact facts ih =>
    obtain ⟨hfact, hfacts⟩ := forall_mem_cons.mp hall
    obtain ⟨hdate, hdates⟩ := forall_mem_cons.mp hdates
    obtain ⟨name, value, hsplit, hsize, -⟩ := hfact
    have hstep : ∃ middle, factStep t (some state) fact = some middle ∧
        middle.date = state.date := by
      simp only [factName, hsplit, Option.bind_some] at hdate
      simp only [factStep, hsplit, Option.bind_some]
      rcases name with _ | (_ | _ | _ | _ | text)
      · exact ⟨_, rfl, rfl⟩
      · exact ⟨_, rfl, rfl⟩
      · obtain ⟨size, hsome⟩ := Option.isSome_iff_exists.mp (hsize rfl)
        refine ⟨{ state with size }, ?_, rfl⟩
        simp [MlsdState.applyFact, hsome]
      · exact absurd rfl hdate.1
      · exact absurd rfl hdate.2
      · exact ⟨_, rfl, rfl⟩
    obtain ⟨middle, hmiddle, hsame⟩ := hstep
    obtain ⟨state', hrun, hdate'⟩ := ih hfacts hdates middle
    exact ⟨state', by rw [foldl_cons, hmiddle, hrun], hdate'.trans hsame⟩

/-! ## Lines -/

/-- The facts of a line. The code page converts them one by one, and their names are different. -/
structure MlsdFacts (t : TextApi) (codePage : CodePage) (facts : List (List Byte)) : Prop where
  nonempty : facts ≠ []
  chars : ∀ fact ∈ facts, ∀ c ∈ fact, c ≠ 59 ∧ isBlank c = false
  convert : ∀ facts', facts'.Perm facts →
    codePage.convert (ended 59 facts') = ended semicolon (facts'.map codePage.convert)
  wide : ∀ fact ∈ facts, semicolon ∉ codePage.convert fact
  names : ((facts.map codePage.convert).filterMap (factName t)).Nodup

/-- What is asked of `parseAsMlsd`. -/
structure MlsdRight (t : TextApi) (codePage names : CodePage) (lead : List Byte)
    (facts : List (List Byte)) (rest : List Byte) : Prop where
  order : ∀ facts', facts'.Perm facts →
    parseAsMlsd t codePage names (lead ++ ended 59 facts' ++ rest) =
      parseAsMlsd t codePage names (lead ++ ended 59 facts ++ rest)
  name : ∀ name, rest = 32 :: name → name ≠ [] → (∀ c ∈ name, c < 128) →
    (∀ fact ∈ facts, ∀ value, splitFact t (codePage.convert fact) = some (some .type, value) →
      t.sameText value (wstr "cdir") = false ∧ t.sameText value (wstr "pdir") = false) →
    ∀ entry, parseAsMlsd t codePage names (lead ++ ended 59 facts ++ rest) = some entry →
      entry.name = name.map (·.toUInt16)

section
variable {codePage names : CodePage} {lead rest : List Byte} {facts facts' : List (List Byte)}

theorem getNextToken_line (hlead : ∀ c ∈ lead, isBlank c = true)
    (hrest : ∀ c, rest.head? = some c → isBlank c = true) (hne : facts ≠ [])
    (hchars : ∀ fact ∈ facts, ∀ c ∈ fact, isBlank c = false) :
    getNextToken (lead ++ ended 59 facts ++ rest) = some (ended 59 facts, rest) := by
  have htoken : ∀ c ∈ ended 59 facts, (!isBlank c) = true := by
    intro c hc
    obtain ⟨fact, hfact, hmem⟩ := mem_flatMap.mp hc
    rcases mem_append.mp hmem with hmem | hmem
    · rw [hchars fact hfact c hmem]
      rfl
    · rw [mem_singleton.mp hmem]
      rfl
  have hends : ∀ c, rest.head? = some c → (!isBlank c) = false := by
    intro c hc
    rw [hrest c hc]
    rfl
  have hcons : ∃ c text, ended 59 facts = c :: text := by
    cases hended : ended 59 facts with
    | nil =>
      cases facts with
      | nil => exact absurd rfl hne
      | cons fact facts => simp at hended
    | cons c text => exact ⟨c, text, rfl⟩
  obtain ⟨c, text, hcons⟩ := hcons
  have hblank : isBlank c = false := by
    have := htoken c (hcons ▸ mem_cons_self)
    simpa using this
  have hdrop : (lead ++ ended 59 facts ++ rest).dropWhile isBlank = ended 59 facts ++ rest := by
    rw [append_assoc, dropWhile_append_of_pos hlead, hcons, cons_append,
      dropWhile_cons_of_neg (by rw [hblank]; exact Bool.false_ne_true)]
  have htail : rest.takeWhile (fun c => !isBlank c) = [] ∧
      rest.dropWhile (fun c => !isBlank c) = rest := by
    cases rest with
    | nil => exact ⟨rfl, rfl⟩
    | cons c rest => simp [hends c rfl]
  rw [getNextToken, hdrop]
  split
  next hnil => simp [hcons] at hnil
  next =>
    rw [takeWhile_append_of_pos htoken, dropWhile_append_of_pos htoken, htail.1, htail.2,
      append_nil]

/-- What the parser makes of a line. -/
theorem parseAsMlsd_line (hlead : ∀ c ∈ lead, isBlank c = true)
    (hrest : ∀ c, rest.head? = some c → isBlank c = true) (hfacts : MlsdFacts t codePage facts)
    (hperm : facts'.Perm facts) :
    parseAsMlsd t codePage names (lead ++ ended 59 facts' ++ rest) =
      ((facts'.map codePage.convert).foldl (factStep t) (some {})).bind fun state =>
        if rest.head? ≠ some 32 then none
        else some (state.entry
          (if state.kind.name = [] then names.convert rest.tail else state.kind.name)) := by
  have hne : facts' ≠ [] := fun h => hfacts.nonempty (List.Perm.nil_eq (h ▸ hperm)).symm
  have hchars : ∀ fact ∈ facts', ∀ c ∈ fact, isBlank c = false := fun fact hfact c hc =>
    (hfacts.chars fact (hperm.mem_iff.mp hfact) c hc).2
  have hwide : ∀ fact ∈ facts'.map codePage.convert, semicolon ∉ fact := by
    intro fact hfact
    obtain ⟨bytes, hbytes, rfl⟩ := mem_map.mp hfact
    exact hfacts.wide bytes (hperm.mem_iff.mp hbytes)
  have hended : ended semicolon (facts'.map codePage.convert) ≠ [] := by
    cases facts' with
    | nil => exact absurd rfl hne
    | cons fact facts' => simp
  simp only [parseAsMlsd, getNextToken_line hlead hrest hne hchars, bind, Option.bind_some,
    hfacts.convert _ hperm, if_neg hended, mlsdLoop_ended hwide]

theorem setKind_name {kind : Kind} (hcdir : t.sameText value (wstr "cdir") = false)
    (hpdir : t.sameText value (wstr "pdir") = false) : (setKind t kind value).name = kind.name := by
  unfold setKind
  rw [hcdir, hpdir, if_neg Bool.false_ne_true, if_neg Bool.false_ne_true]
  split
  · rfl
  split
  · rfl
  split
  · rfl
  · split <;> rfl

/-- Only the type gives a name. -/
theorem applyFact_name (h : state.applyFact t name value = some state')
    (htype : name = some .type →
      t.sameText value (wstr "cdir") = false ∧ t.sameText value (wstr "pdir") = false) :
    state'.kind.name = state.kind.name := by
  rcases name with _ | (_ | _ | _ | _ | fact)
  · rw [← Option.some.inj h]
  · rw [← Option.some.inj h]
    exact setKind_name (htype rfl).1 (htype rfl).2
  · obtain ⟨size, -, rfl⟩ := Option.map_eq_some_iff.mp h
    rfl
  · obtain ⟨date, -, rfl⟩ := Option.map_eq_some_iff.mp h
    rfl
  · rw [MlsdState.applyFact] at h
    split at h
    · rw [← Option.some.inj h]
    · obtain ⟨date, -, rfl⟩ := Option.map_eq_some_iff.mp h
      rfl
  · rw [← Option.some.inj h]

theorem foldl_name {facts : List UnicodeString}
    (htype : ∀ fact ∈ facts, ∀ value, splitFact t fact = some (some .type, value) →
      t.sameText value (wstr "cdir") = false ∧ t.sameText value (wstr "pdir") = false)
    (hrun : facts.foldl (factStep t) (some {}) = some state') : state'.kind.name = [] := by
  refine foldl_invariant (P := fun s => s.kind.name = []) (fun fact hfact s s' hs hstep => ?_)
    rfl hrun
  obtain ⟨name, value, hsplit, happly⟩ := factStep_some hstep
  rw [applyFact_name happly fun hname => htype fact hfact value (hname ▸ hsplit), hs]

/-- Two facts of a line can be put behind the other ones. -/
theorem perm_last_two {first second : List Byte} (hfirst : first ∈ facts) (hsecond : second ∈ facts)
    (hne : first ≠ second) : ∃ others, (others ++ [first, second]).Perm facts ∧
      (others ++ [second, first]).Perm facts := by
  have hrest : second ∈ facts.erase first := (mem_erase_of_ne hne.symm).mpr hsecond
  have hperm : ((facts.erase first).erase second ++ [first, second]).Perm facts :=
    perm_append_comm.trans
      (((perm_cons_erase hrest).symm.cons first).trans (perm_cons_erase hfirst).symm)
  exact ⟨_, hperm, ((List.Perm.swap _ _ []).append_left _).trans hperm⟩

/-- The two orders of dates that clash. -/
theorem dates_clash_differ {first second : UnicodeString} {modify create : UnicodeString}
    (hmodify : splitFact t first = some (some .modify, modify))
    (hcreate : splitFact t second = some (some .create, create))
    (htime : (mlsdTime modify).isSome = true) (hclash : DatesClash modify create)
    (hdate : state.date = {}) {P : MlsdState → DirEntry} (hP : ∀ s, (P s).date = s.date) :
    (factStep t (factStep t (some state) first) second).map P ≠
      (factStep t (factStep t (some state) second) first).map P := by
  obtain ⟨⟨fields, time⟩, htime⟩ := Option.isSome_iff_exists.mp htime
  have hlast : factStep t (factStep t (some state) first) second =
      some { state with date := setDate {} fields time } := by
    simp [factStep, hmodify, hcreate, MlsdState.applyFact, parseMlsdDateTime, htime, hdate, setDate]
  rw [hlast]
  intro heq
  rcases hclash with hnone | ⟨⟨fields', hcreated⟩, fields'', hmodified⟩
  · simp [factStep, hmodify, hcreate, MlsdState.applyFact, parseMlsdDateTime, hnone, hdate] at heq
  · have hother : factStep t (factStep t (some state) second) first =
        some { state with date := setDate (setDate {} fields' true) fields time } := by
      simp [factStep, hmodify, hcreate, MlsdState.applyFact, parseMlsdDateTime, htime, hcreated,
        hdate]
    rw [hother, Option.map_some, Option.map_some, Option.some.injEq] at heq
    have hdates := congrArg (·.date.hasseconds) heq
    simp only [hP, setDate] at hdates
    rw [hmodified] at htime
    cases htime
    cases hdates

theorem not_order (hlead : ∀ c ∈ lead, isBlank c = true)
    (hrest : ∀ c, rest.head? = some c → isBlank c = true) (hfacts : MlsdFacts t codePage facts)
    (hblank : rest.head? = some 32) (hclash : MlsdClash t (facts.map codePage.convert)) :
    ¬ MlsdRight t codePage names lead facts rest := by
  obtain ⟨hall, _, hmem, _, hmem', modify, create, hmodify, hcreate, hdates⟩ := hclash
  obtain ⟨first, hfirst, rfl⟩ := mem_map.mp hmem
  obtain ⟨second, hsecond, rfl⟩ := mem_map.mp hmem'
  have hne : first ≠ second := by
    rintro rfl
    rw [hmodify] at hcreate
    cases hcreate
  obtain ⟨others, hperm, hperm'⟩ := perm_last_two hfirst hsecond hne
  intro hright
  have hsame := (hright.order _ hperm).trans (hright.order _ hperm').symm
  rw [parseAsMlsd_line hlead hrest hfacts hperm, parseAsMlsd_line hlead hrest hfacts hperm'] at hsame
  have hsub : ∀ fact ∈ others.map codePage.convert, fact ∈ facts.map codePage.convert :=
    fun fact hfact => ((hperm.map codePage.convert).mem_iff).mp (by simp_all)
  have hothers : ∀ fact ∈ others.map codePage.convert,
      factName t fact ≠ some .modify ∧ factName t fact ≠ some .create := by
    have hnames := (((hperm.map codePage.convert).filterMap (factName t)).nodup_iff).mpr hfacts.names
    rw [map_append, filterMap_append, nodup_append] at hnames
    intro fact hfact
    have hlast : (([first, second].map codePage.convert).filterMap (factName t)) =
        [.modify, .create] := by
      simp [factName, hmodify, hcreate]
    rw [hlast] at hnames
    refine ⟨fun hname => ?_, fun hname => ?_⟩
    · exact hnames.2.2 _ (mem_filterMap.mpr ⟨fact, hfact, hname⟩) _ mem_cons_self rfl
    · exact hnames.2.2 _ (mem_filterMap.mpr ⟨fact, hfact, hname⟩) _ (by simp) rfl
  obtain ⟨state, hrun, hdate⟩ := exists_foldl_dateless (fun fact hfact => hall fact (hsub fact hfact))
    hothers {}
  obtain ⟨name, value, hsplit, -, htime⟩ := hall _ hmem
  rw [hmodify] at hsplit
  cases hsplit
  simp only [map_append, foldl_append, hrun, map_cons, map_nil, foldl_cons,
    foldl_nil, hblank, ne_eq, not_true_eq_false, if_false] at hsame
  exact dates_clash_differ hmodify hcreate (htime rfl) hdates hdate (fun _ => rfl)
    (by rw [Option.map_eq_bind, Option.map_eq_bind]; exact hsame)

/-- The order of the facts does not matter and the name is the text behind the blank, unless
two dates clash: a creation date that is malformed, or that has a time when the other date has
none. -/
theorem parseAsMlsd_right_iff (hlead : ∀ c ∈ lead, isBlank c = true)
    (hrest : ∀ c, rest.head? = some c → isBlank c = true) (hfacts : MlsdFacts t codePage facts) :
    MlsdRight t codePage names lead facts rest ↔
      ¬ (rest.head? = some 32 ∧ MlsdClash t (facts.map codePage.convert)) := by
  constructor
  · rintro hright ⟨hblank, hclash⟩
    exact not_order hlead hrest hfacts hblank hclash hright
  intro hnot
  refine ⟨fun facts' hperm => ?_, fun name hname hne hascii htype entry hentry => ?_⟩
  · rw [parseAsMlsd_line hlead hrest hfacts hperm,
      parseAsMlsd_line hlead hrest hfacts (List.Perm.refl _)]
    by_cases hblank : rest.head? = some 32
    · by_cases hall : ∀ fact ∈ facts.map codePage.convert, Acceptable t fact
      · rw [foldl_factStep_perm hfacts.names hall (fun h => hnot ⟨hblank, h⟩)
          (hperm.map codePage.convert)]
      · obtain ⟨fact, hbad⟩ := not_forall.mp hall
        obtain ⟨hmem, hbad⟩ := Classical.not_imp.mp hbad
        rw [foldl_not_acceptable hmem hbad,
          foldl_not_acceptable ((hperm.map codePage.convert).mem_iff.mpr hmem) hbad]
    · simp [hblank]
  · rw [parseAsMlsd_line hlead hrest hfacts (List.Perm.refl _)] at hentry
    obtain ⟨state, hrun, hstate⟩ := Option.bind_eq_some_iff.mp hentry
    have hempty := foldl_name (fun fact hfact value hsplit => by
      obtain ⟨bytes, hbytes, rfl⟩ := List.mem_map.mp hfact
      exact htype bytes hbytes value hsplit) hrun
    rw [hname, List.head?_cons, if_neg (by simp), if_pos hempty] at hstate
    rw [← Option.some.inj hstate]
    exact names.ascii name hascii

end

theorem latin1_facts {facts : List (List Byte)} (hne : facts ≠ [])
    (hall : (facts.all fun fact => fact.all fun c => c != 59 && !isBlank c) = true)
    (hnames : ((facts.map latin1.convert).filterMap (factName t)).Nodup) :
    MlsdFacts t latin1 facts := by
  have hchars : ∀ fact ∈ facts, ∀ c ∈ fact, c ≠ 59 ∧ isBlank c = false := by
    intro fact hfact c hc
    simpa using all_eq_true.mp (all_eq_true.mp hall fact hfact) c hc
  refine ⟨hne, hchars, fun facts' _ => ?_, fun fact hfact hmem => ?_, hnames⟩
  · simp [ended, latin1, map_flatMap, flatMap_map, semicolon]
  · obtain ⟨c, hc, heq⟩ := mem_map.mp hmem
    refine (hchars fact hfact c hc).1 (UInt8.toNat_inj.mp ?_)
    simpa [semicolon] using congrArg UInt16.toNat heq

def bytes (text : String) : List Byte := text.toList.map fun c => c.toNat.toUInt8

theorem mlsd_file_line :
    MlsdRight asciiText latin1 latin1 [] [bytes "Type=file", bytes "Size=1"]
        (bytes " a") ↔
      ¬ ((bytes " a").head? = some 32 ∧ MlsdClash asciiText
        ([bytes "Type=file", bytes "Size=1"].map latin1.convert)) :=
  parseAsMlsd_right_iff (by simp) (by simp [bytes, isBlank])
    (latin1_facts (by simp) rfl (by decide))

/-- A malformed creation date in front of the other date. -/
theorem mlsd_malformed_create :
    ¬ MlsdRight asciiText latin1 latin1 []
      [bytes "create=x", bytes "modify=20200101120000"] (bytes " a") := by
  intro hright
  have hfacts : MlsdFacts asciiText latin1
      [bytes "create=x", bytes "modify=20200101120000"] :=
    latin1_facts (by simp) rfl (by decide)
  have hrest : ∀ c, (bytes " a").head? = some c → isBlank c = true := by simp [bytes, isBlank]
  have hsame := hright.order _ (List.Perm.swap _ _ [])
  rw [parseAsMlsd_line (by simp) hrest hfacts (List.Perm.swap _ _ []),
    parseAsMlsd_line (by simp) hrest hfacts (List.Perm.refl _)] at hsame
  revert hsame
  decide

end NetBox.Ftp
