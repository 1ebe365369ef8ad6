import NetBox.Storage.KeyNames

/-! # Hierarchical storages

`THierarchicalStorage` of HierarchicalStorage.cpp: the keys that are open, each one
inside the one before it, over a backend that really opens them. In a storage that
cannot be written, a key that is to be created is opened for show only.
-/
namespace NetBox.Storage

open Base.Text Session

def hsaRead : Nat := 1
def hsaWrite : Nat := 2

/-- `TKeyEntry`. The last two fields say how the key came to be open: under which
name the backend was asked for it, and whether it is open for show only. The source
does not keep them. -/
structure TKeyEntry where
  key : UnicodeString
  levels : Nat
  access : Nat
  opened : UnicodeString
  fake : Bool
  deriving DecidableEq, Repr

/-- The virtual methods. They see the keys that are open, the last one first. -/
structure Backend (β : Type) where
  doOpenSubKey : List TKeyEntry → UnicodeString → Bool → β → Bool × β
  doCloseSubKey : List TKeyEntry → β → β
  doKeyExists : List TKeyEntry → UnicodeString → Bool → β → Bool
  /-- The value of the current key that says what may be done with it. -/
  accessValue : List TKeyEntry → β → Option UnicodeString

/-- What is set once for a storage. -/
structure KeyConfig where
  api : NameApi
  forceAnsi : Bool := false
  mungeStringValues : Bool := true
  unmungedRoot : UnicodeString := []

/-- `THierarchicalStorage`. The keys that are open stand with the last one first.
The last two fields count the calls that reach the backend. -/
structure THierarchicalStorage (β : Type) where
  keyHistory : List TKeyEntry := []
  fakeReadOnlyOpens : Nat := 0
  rootAccess : Option Nat := none
  backend : β
  realOpens : Nat := 0
  realCloses : Nat := 0

variable {β : Type}

namespace THierarchicalStorage

def currentSubKeyMunged (s : THierarchicalStorage β) : UnicodeString :=
  match s.keyHistory with
  | [] => []
  | entry :: _ => entry.key

def currentSubKey (api : NameApi) (s : THierarchicalStorage β) : UnicodeString :=
  unMungeStr api s.currentSubKeyMunged

/-- `GetCurrentAccess`, once the access of the root is known. -/
def currentAccess (s : THierarchicalStorage β) : Nat :=
  match s.keyHistory with
  | [] => s.rootAccess.getD hsaRead
  | entry :: _ => entry.access

def hasAccess (access : Nat) (s : THierarchicalStorage β) : Bool :=
  s.currentAccess &&& access == access && s.fakeReadOnlyOpens == 0

def canRead (s : THierarchicalStorage β) : Bool := s.hasAccess hsaRead

def canWrite (s : THierarchicalStorage β) : Bool := s.hasAccess hsaWrite

end THierarchicalStorage

/-- `IncludeTrailingBackslash` of a key. -/
def includeBackslash (key : UnicodeString) : UnicodeString :=
  if key.isEmpty then key else includeTrailingBackslash key

/-- The loop of `ReadAccess` over the words of an access text. -/
def parseAccess (api : NameApi) (inherited : Nat) : Nat → UnicodeString → Nat
  | 0, _ => 0
  | fuel + 1, access =>
    if access.isEmpty then 0 else
      let (token, rest) := cutToChar access 44 true
      let granted :=
        if api.text.sameText token (wstr "inherit") then inherited
        else if api.text.sameText token (wstr "read") then hsaRead
        else if api.text.sameText token (wstr "full") then hsaRead ||| hsaWrite
        else 0
      granted ||| parseAccess api inherited fuel rest

namespace THierarchicalStorage

variable (b : Backend β) (c : KeyConfig)

/-- `ReadAccessString` of a key that is open. -/
def readAccessString (s : THierarchicalStorage β) : UnicodeString :=
  if s.canRead then
    match b.accessValue s.keyHistory s.backend with
    | some value => if c.mungeStringValues then unMungeStr c.api value else value
    | none => wstr "inherit"
  else wstr "inherit"

def readAccess (inherited : Nat) (s : THierarchicalStorage β) : Nat :=
  let access := s.readAccessString b c
  parseAccess c.api inherited access.length access

/-- `KeyExists` -/
def keyExists (subKey : UnicodeString) (s : THierarchicalStorage β) : Bool :=
  s.canRead && b.doKeyExists s.keyHistory subKey c.forceAnsi s.backend

/-- `MungingKeyName` -/
def mungingKeyName (key : UnicodeString) (s : THierarchicalStorage β) : Bool :=
  let k := s.currentSubKey c.api ++ key ++ [backslash]
  c.unmungedRoot.isEmpty ||
    !c.api.text.sameText (leftStr (c.unmungedRoot ++ [backslash]) k.length) k

/-- `MungeKeyName` -/
def mungeKeyName (key : UnicodeString) (s : THierarchicalStorage β) : UnicodeString :=
  if !s.mungingKeyName c key then key else
    let result := mungeStr key c.forceAnsi
    if result ≠ key ∧ !c.forceAnsi ∧ s.canRead ∧ b.doKeyExists s.keyHistory key true s.backend then
      mungeStr key true
    else result

/-- An entry is put on the history, and then it is read what may be done with it. -/
def pushEntry (name : UnicodeString) (access inherited : Nat) (opened : UnicodeString)
    (fake : Bool) (s : THierarchicalStorage β) : THierarchicalStorage β :=
  let entry : TKeyEntry :=
    { key := includeBackslash (s.currentSubKey c.api ++ name)
      levels := 1, access := access, opened := opened, fake := fake }
  let pushed := { s with keyHistory := entry :: s.keyHistory }
  let entry := { entry with access := pushed.readAccess b c inherited }
  { s with keyHistory := entry :: s.keyHistory }

/-- One attempt to open a key really. -/
def tryOpen (subKey : UnicodeString) (canCreate : Bool) (s : THierarchicalStorage β) :
    Bool × THierarchicalStorage β :=
  let (result, backend) := b.doOpenSubKey s.keyHistory subKey canCreate s.backend
  (result, { s with
    backend := backend
    realOpens := if result then s.realOpens + 1 else s.realOpens })

/-- The key is not there and cannot be created. -/
def opensFake (subKey : UnicodeString) (canCreate : Bool) (s : THierarchicalStorage β) : Bool :=
  !s.canWrite && canCreate && !s.keyExists b c (s.mungeKeyName b c subKey)

/-- `OpenSubKey`, once the access of the root is known. The name that a key is
entered with is the last one that was munged for it, also when the backend opened
it under its plain name. -/
def openKnown (subKey : UnicodeString) (canCreate : Bool) (s : THierarchicalStorage β) :
    Bool × THierarchicalStorage β :=
  if s.opensFake b c subKey canCreate then
    let name := s.mungeKeyName b c subKey
    (true, pushEntry b c name 0 0 name true
      { s with fakeReadOnlyOpens := s.fakeReadOnlyOpens + 1 })
  else
    let inherited := s.currentAccess
    let name1 := mungeStr subKey c.forceAnsi
    let name2 := mungeStr subKey (!c.forceAnsi)
    match s.tryOpen b name1 canCreate with
    | (true, s) => (true, pushEntry b c name1 hsaRead inherited name1 false s)
    | (false, s) =>
      match s.tryOpen b name2 canCreate with
      | (true, s) => (true, pushEntry b c name2 hsaRead inherited name2 false s)
      | (false, s) =>
        match s.tryOpen b subKey canCreate with
        | (true, s) => (true, pushEntry b c name2 hsaRead inherited subKey false s)
        | (false, s) => (false, s)

/-- `CloseSubKey`. Without an open key it throws and changes nothing. -/
def closeSubKey (s : THierarchicalStorage β) : THierarchicalStorage β :=
  match s.keyHistory with
  | [] => s
  | _ :: history =>
    if 0 < s.fakeReadOnlyOpens then
      { s with keyHistory := history, fakeReadOnlyOpens := s.fakeReadOnlyOpens - 1 }
    else
      { s with
        keyHistory := history
        backend := b.doCloseSubKey history s.backend
        realCloses := s.realCloses + 1 }

/-- The first thing that is asked of a storage is the access of its root, which is
read from the root key and kept. -/
def resolveRoot (s : THierarchicalStorage β) : THierarchicalStorage β :=
  if s.keyHistory.isEmpty && s.rootAccess.isNone then
    match openKnown b c [] false { s with rootAccess := some hsaRead } with
    | (true, s) =>
      let access := s.readAccessString b c
      { s.closeSubKey b with
        rootAccess := some (parseAccess c.api (hsaRead ||| hsaWrite) access.length access) }
    | (false, s) =>
      { s with rootAccess := some (hsaRead ||| hsaWrite) }
  else s

/-- `OpenSubKey` -/
def openSubKey (subKey : UnicodeString) (canCreate : Bool) (s : THierarchicalStorage β) :
    Bool × THierarchicalStorage β :=
  openKnown b c subKey canCreate (s.resolveRoot b c)

/-! ## What opening a key can do -/

/-- What the backend answers for a key that it has under neither of its munged names, when
it is asked for the plain one. -/
def plainAnswer (subKey : UnicodeString) (canCreate : Bool) (s : THierarchicalStorage β) :
    Option Bool :=
  let first := s.tryOpen b (mungeStr subKey c.forceAnsi) canCreate
  let second := first.2.tryOpen b (mungeStr subKey (!c.forceAnsi)) canCreate
  if first.1 || second.1 then none else some (second.2.tryOpen b subKey canCreate).1

/-- The three ends that opening a key has. -/
inductive Opened (subKey : UnicodeString) (canCreate : Bool) (s : THierarchicalStorage β) :
    Bool × THierarchicalStorage β → Prop
  | failed (backend : β) : Opened subKey canCreate s (false, { s with backend := backend })
  | fake (granted : Nat) (h : s.opensFake b c subKey canCreate = true) :
    Opened subKey canCreate s (true, { s with
      keyHistory := ⟨includeBackslash (s.currentSubKey c.api ++ s.mungeKeyName b c subKey), 1,
        granted, s.mungeKeyName b c subKey, true⟩ :: s.keyHistory
      fakeReadOnlyOpens := s.fakeReadOnlyOpens + 1 })
  | real (name opened : UnicodeString) (granted : Nat) (backend : β)
    (h : s.opensFake b c subKey canCreate = false)
    (hfound : s.plainAnswer b c subKey canCreate ≠ some false)
    (hname : opened = name ∨ opened = subKey ∧ name = mungeStr subKey (!c.forceAnsi) ∧
      s.plainAnswer b c subKey canCreate = some true) :
    Opened subKey canCreate s (true, { s with
      keyHistory := ⟨includeBackslash (s.currentSubKey c.api ++ name), 1, granted, opened,
        false⟩ :: s.keyHistory
      backend := backend
      realOpens := s.realOpens + 1 })

theorem tryOpen_cases (subKey : UnicodeString) (canCreate : Bool)
    (s : THierarchicalStorage β) :
    (∃ backend, s.tryOpen b subKey canCreate =
      (true, { s with backend := backend, realOpens := s.realOpens + 1 })) ∨
    ∃ backend, s.tryOpen b subKey canCreate = (false, { s with backend := backend }) := by
  rw [tryOpen]
  obtain ⟨result, backend⟩ := b.doOpenSubKey s.keyHistory subKey canCreate s.backend
  cases result with
  | true => exact .inl ⟨backend, rfl⟩
  | false => exact .inr ⟨backend, rfl⟩

theorem openKnown_opened (subKey : UnicodeString) (canCreate : Bool)
    (s : THierarchicalStorage β) :
    Opened b c subKey canCreate s (openKnown b c subKey canCreate s) := by
  rw [openKnown]
  by_cases hfake : s.opensFake b c subKey canCreate = true
  · rw [if_pos hfake]
    exact .fake _ hfake
  rw [if_neg hfake]
  rw [Bool.not_eq_true] at hfake
  dsimp only
  -- the attempts under the first munged name, the second one and the plain one
  rcases tryOpen_cases b (mungeStr subKey c.forceAnsi) canCreate s with ⟨b1, h1⟩ | ⟨b1, h1⟩
  · have hnone : s.plainAnswer b c subKey canCreate = none := by simp [plainAnswer, h1]
    rw [h1]
    exact .real _ _ _ b1 hfake (by simp [hnone]) (.inl rfl)
  rw [h1]
  dsimp only
  rcases tryOpen_cases b (mungeStr subKey (!c.forceAnsi)) canCreate { s with backend := b1 }
    with ⟨b2, h2⟩ | ⟨b2, h2⟩
  · have hnone : s.plainAnswer b c subKey canCreate = none := by simp [plainAnswer, h1, h2]
    rw [h2]
    exact .real _ _ _ b2 hfake (by simp [hnone]) (.inl rfl)
  rw [h2]
  dsimp only
  rcases tryOpen_cases b subKey canCreate { s with backend := b2 } with ⟨b3, h3⟩ | ⟨b3, h3⟩
  · have hplain : s.plainAnswer b c subKey canCreate = some true := by
      simp [plainAnswer, h1, h2, h3]
    rw [h3]
    exact .real _ _ _ b3 hfake (by simp [hplain]) (.inr ⟨rfl, rfl, hplain⟩)
  · rw [h3]
    exact .failed b3

end THierarchicalStorage

end NetBox.Storage
