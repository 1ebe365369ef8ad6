import NetBox.Storage.Registry
import NetBox.Lib.Run

/-! # The history of open keys

What every sequence of calls leaves of a storage: the key that it is at, the keys
that are open for show only, and the calls that the backend has seen. Keys are opened
and closed one by one, or along a path.
-/
namespace NetBox.Storage

open Base.Text Session Lib.Run List

variable {β : Type}

/-! ## Paths of keys -/

/-- The loop that cuts a path into its components. -/
def cutPath : Nat → UnicodeString → List UnicodeString
  | 0, _ => []
  | fuel + 1, buf =>
    if buf.isEmpty then [] else
      let (subKey, rest) := cutToChar buf backslash false
      subKey :: cutPath fuel rest

/-- The components of a path. -/
def keyPath (path : UnicodeString) : List UnicodeString := cutPath path.length path

/-- `FKeyHistory.back().Levels = Levels` -/
def setLevels (levels : Nat) : List TKeyEntry → List TKeyEntry
  | [] => []
  | entry :: history => { entry with levels := levels } :: history

namespace THierarchicalStorage

variable (b : Backend β) (c : KeyConfig)

/-- The loop of `OpenSubKeyPath`: the last result, how many keys it has opened, and
the storage. -/
def openLoop (canCreate : Bool) : List UnicodeString → Bool → Nat → THierarchicalStorage β →
    Bool × Nat × THierarchicalStorage β
  | [], result, opens, s => (result, opens, s)
  | subKey :: rest, _, opens, s =>
    let (result, s) := s.openSubKey b c subKey canCreate
    openLoop canCreate rest result (if result then opens + 1 else opens) s

/-- `CloseSubKey`, that many times. -/
def closeTimes : Nat → THierarchicalStorage β → THierarchicalStorage β
  | 0, s => s
  | n + 1, s => closeTimes n (s.closeSubKey b)

def openSubKeyPath (path : UnicodeString) (canCreate : Bool) (s : THierarchicalStorage β) :
    Bool × THierarchicalStorage β :=
  let (result, opens, s) := openLoop b c canCreate (keyPath path) false 0 s
  if result then (true, { s with keyHistory := setLevels opens s.keyHistory })
  else (false, s.closeTimes b opens)

def closeSubKeyPath (s : THierarchicalStorage β) : THierarchicalStorage β :=
  match s.keyHistory with
  | [] => s
  | entry :: _ => { s with keyHistory := setLevels 1 s.keyHistory }.closeTimes b entry.levels

end THierarchicalStorage

/-! ## What is asked of the history -/

/-- The keys of a history one inside the other, each under the name that it was
really opened with. -/
def composed : List TKeyEntry → UnicodeString
  | [] => []
  | entry :: history => includeBackslash (composed history ++ entry.opened)

/-- What is asked of the history of a storage. -/
structure KeyDiscipline (s : THierarchicalStorage β) : Prop where
  /-- The current key is composed of the names that were opened. -/
  current : s.currentSubKeyMunged = composed s.keyHistory
  /-- The keys that are open for show only are counted. -/
  counted : s.fakeReadOnlyOpens = (s.keyHistory.filter (·.fake)).length
  /-- They are the last ones. -/
  topmost : ∃ fakes reals, s.keyHistory = fakes ++ reals ∧
    (∀ entry ∈ fakes, entry.fake = true) ∧ ∀ entry ∈ reals, entry.fake = false
  /-- The others are what the backend has open. -/
  balanced : s.realOpens = s.realCloses + (s.keyHistory.filter (!·.fake)).length

/-- A call of a user of the storage. -/
inductive KeyAction where
  | openKey (subKey : UnicodeString) (canCreate : Bool)
  | closeKey
  | openPath (path : UnicodeString) (canCreate : Bool)
  | closePath

namespace THierarchicalStorage

variable (b : Backend β) (c : KeyConfig)

/-- One call. Closing without an open key throws and changes nothing. -/
def step (s : THierarchicalStorage β) : KeyAction → Option (THierarchicalStorage β)
  | .openKey subKey canCreate => some (s.openSubKey b c subKey canCreate).2
  | .closeKey => some (s.closeSubKey b)
  | .openPath path canCreate => some (s.openSubKeyPath b c path canCreate).2
  | .closePath => some (s.closeSubKeyPath b)

/-- The key can be opened without harm: the current key is spelled as it is stored,
the backend has the new one under a munged name if it has it, and it has none inside a
key that is open for show. The access of the root is known. -/
structure OpenFits (subKey : UnicodeString) (canCreate : Bool) (s : THierarchicalStorage β) :
    Prop where
  spelled : s.currentSubKey c.api = s.currentSubKeyMunged
  munged : s.plainAnswer b c subKey canCreate = some true →
    mungeStr subKey (!c.forceAnsi) = subKey
  missing : 0 < s.fakeReadOnlyOpens → canCreate = false →
    s.plainAnswer b c subKey false = some false

/-- All components of a path can be opened without harm, one after the other. -/
def PathFits (canCreate : Bool) : List UnicodeString → THierarchicalStorage β → Prop
  | [], _ => True
  | subKey :: rest, s =>
    OpenFits b c subKey canCreate (s.resolveRoot b c) ∧
      PathFits canCreate rest (s.openSubKey b c subKey canCreate).2

def StepFits (s : THierarchicalStorage β) : KeyAction → Prop
  | .openKey subKey canCreate => OpenFits b c subKey canCreate (s.resolveRoot b c)
  | .openPath path canCreate => PathFits b c canCreate (keyPath path) s
  | .closeKey => True
  | .closePath => True

end THierarchicalStorage

/-! ## The invariant -/

/-- Every key of a history is composed of the names from it on. -/
def Spelled : List TKeyEntry → Prop
  | [] => True
  | entry :: history => entry.key = composed (entry :: history) ∧ Spelled history

/-- The keys that are open for show are the last ones. -/
def Topmost : List TKeyEntry → Prop
  | [] => True
  | entry :: history =>
    (entry.fake = false → ∀ e ∈ history, e.fake = false) ∧ Topmost history

structure Disciplined (s : THierarchicalStorage β) : Prop where
  spelled : Spelled s.keyHistory
  counted : s.fakeReadOnlyOpens = (s.keyHistory.filter (·.fake)).length
  topmost : Topmost s.keyHistory
  balanced : s.realOpens = s.realCloses + (s.keyHistory.filter (!·.fake)).length

theorem Topmost.split {history : List TKeyEntry} (h : Topmost history) :
    ∃ fakes reals, history = fakes ++ reals ∧ (∀ entry ∈ fakes, entry.fake = true) ∧
      ∀ entry ∈ reals, entry.fake = false := by
  induction history with
  | nil => exact ⟨[], [], rfl, by simp, by simp⟩
  | cons entry history ih =>
    obtain ⟨hentry, hrest⟩ := h
    cases hfake : entry.fake with
    | false =>
      refine ⟨[], entry :: history, rfl, by simp, ?_⟩
      exact forall_mem_cons.mpr ⟨hfake, hentry hfake⟩
    | true =>
      obtain ⟨fakes, reals, rfl, hfakes, hreals⟩ := ih hrest
      exact ⟨entry :: fakes, reals, rfl, forall_mem_cons.mpr ⟨hfake, hfakes⟩, hreals⟩

variable {s : THierarchicalStorage β}

theorem Spelled.current (h : Spelled s.keyHistory) :
    s.currentSubKeyMunged = composed s.keyHistory := by
  rw [THierarchicalStorage.currentSubKeyMunged]
  cases hs : s.keyHistory with
  | nil => rfl
  | cons entry history =>
    rw [hs] at h
    exact h.1

theorem Disciplined.keyDiscipline (h : Disciplined s) : KeyDiscipline s :=
  ⟨h.spelled.current, h.counted, h.topmost.split, h.balanced⟩

namespace THierarchicalStorage

variable {b : Backend β} {c : KeyConfig}

/-- No key is open for show when none is counted. -/
theorem noFakes (h : Disciplined s) (h0 : s.fakeReadOnlyOpens = 0) :
    ∀ entry ∈ s.keyHistory, entry.fake = false := by
  have hlen := h.counted
  rw [h0] at hlen
  have hnil := filter_eq_nil_iff.mp (length_eq_zero_iff.mp hlen.symm)
  intro entry hentry
  simpa using hnil entry hentry

theorem disciplined_closeSubKey (h : Disciplined s) : Disciplined (s.closeSubKey b) := by
  rw [closeSubKey]
  cases hs : s.keyHistory with
  | nil => exact h
  | cons entry history =>
    obtain ⟨hspelled, hcounted, htopmost, hbalanced⟩ := h
    rw [hs] at hspelled hcounted htopmost hbalanced
    dsimp only
    split
    next hfake =>
      -- a key is open for show, so the last one is
      have hentry : entry.fake = true := by
        by_contra hreal
        rw [Bool.not_eq_true] at hreal
        have hnone : (entry :: history).filter (·.fake) = [] := by
          refine filter_eq_nil_iff.mpr fun e he => ?_
          rcases mem_cons.mp he with rfl | he
          · simp [hreal]
          · simp [htopmost.1 hreal e he]
        rw [hcounted, hnone] at hfake
        cases hfake
      refine ⟨hspelled.2, ?_, htopmost.2, ?_⟩
      · rw [filter_cons_of_pos hentry, length_cons] at hcounted
        exact Nat.sub_eq_of_eq_add hcounted
      · rw [filter_cons_of_neg (by simp [hentry])] at hbalanced
        exact hbalanced
    next hfake =>
      have hentry : entry.fake = false := by
        by_contra hreal
        rw [Bool.not_eq_false] at hreal
        rw [filter_cons_of_pos hreal, length_cons] at hcounted
        omega
      refine ⟨hspelled.2, ?_, htopmost.2, ?_⟩
      · rw [filter_cons_of_neg (by simp [hentry])] at hcounted
        exact hcounted
      · rw [filter_cons_of_pos (by simp [hentry]), length_cons] at hbalanced
        dsimp only
        omega

/-- Inside a key that is open for show there is no access, so a key that may be created
is opened for show as well. -/
theorem opensFake_inside (subKey : UnicodeString) (h : 0 < s.fakeReadOnlyOpens) :
    s.opensFake b c subKey true = true := by
  have hnone : ∀ access, s.hasAccess access = false := fun access => by
    simp [hasAccess, Nat.ne_of_gt h]
  simp [opensFake, keyExists, canRead, canWrite, hnone]

theorem disciplined_openKnown {subKey : UnicodeString} {canCreate : Bool} (h : Disciplined s)
    (hfits : OpenFits b c subKey canCreate s) :
    Disciplined (openKnown b c subKey canCreate s).2 := by
  have hcurrent : s.currentSubKey c.api = composed s.keyHistory :=
    hfits.spelled.trans h.spelled.current
  have hopened := openKnown_opened b c subKey canCreate s
  generalize openKnown b c subKey canCreate s = r at hopened
  cases hopened with
  | failed backend => exact ⟨h.spelled, h.counted, h.topmost, h.balanced⟩
  | fake granted hfake =>
    refine ⟨⟨?_, h.spelled⟩, ?_, ⟨fun hfalse => ?_, h.topmost⟩, ?_⟩
    · rw [composed, hcurrent]
    · rw [filter_cons_of_pos rfl, length_cons, h.counted]
    · cases hfalse
    · rw [filter_cons_of_neg (by simp)]
      exact h.balanced
  | real name opened granted backend hfake hfound hname =>
    have hzero : s.fakeReadOnlyOpens = 0 := by
      by_contra hne
      have hpos := Nat.pos_of_ne_zero hne
      cases canCreate with
      | true =>
        rw [opensFake_inside subKey hpos] at hfake
        cases hfake
      | false => exact hfound (hfits.missing hpos rfl)
    have hsame : opened = name := by
      rcases hname with hsame | ⟨rfl, rfl, hplain⟩
      · exact hsame
      · exact (hfits.munged hplain).symm
    refine ⟨⟨?_, h.spelled⟩, ?_, ⟨fun _ => noFakes h hzero, h.topmost⟩, ?_⟩
    · rw [composed, hcurrent, hsame]
    · rw [filter_cons_of_neg (by simp)]
      exact h.counted
    · rw [filter_cons_of_pos rfl, length_cons, h.balanced]
      exact Nat.add_assoc _ _ _

theorem disciplined_resolveRoot (h : Disciplined s) : Disciplined (s.resolveRoot b c) := by
  rw [resolveRoot]
  split
  next hempty =>
    have hnil : s.keyHistory = [] := by
      rw [Bool.and_eq_true, List.isEmpty_iff] at hempty
      exact hempty.1
    have h0 : Disciplined { s with rootAccess := some hsaRead } :=
      ⟨h.spelled, h.counted, h.topmost, h.balanced⟩
    have hfits : OpenFits b c [] false { s with rootAccess := some hsaRead } := by
      refine ⟨?_, fun _ => by cases c.forceAnsi <;> rfl, fun hpos _ => ?_⟩
      · rw [currentSubKey, currentSubKeyMunged, hnil]
        rfl
      · have hcounted := h.counted
        rw [hnil] at hcounted
        exact absurd hpos (by rw [hcounted]; decide)
    have hopened := disciplined_openKnown h0 hfits
    split
    next t ht =>
      rw [ht] at hopened
      have hclosed := disciplined_closeSubKey (b := b) hopened
      exact ⟨hclosed.spelled, hclosed.counted, hclosed.topmost, hclosed.balanced⟩
    next t ht =>
      rw [ht] at hopened
      exact ⟨hopened.spelled, hopened.counted, hopened.topmost, hopened.balanced⟩
  next => exact h

theorem disciplined_setLevels (levels : Nat) (h : Disciplined s) :
    Disciplined { s with keyHistory := setLevels levels s.keyHistory } := by
  obtain ⟨hspelled, hcounted, htopmost, hbalanced⟩ := h
  cases hs : s.keyHistory with
  | nil =>
    rw [hs] at hspelled hcounted htopmost hbalanced
    exact ⟨hspelled, hcounted, htopmost, hbalanced⟩
  | cons entry history =>
    rw [hs] at hspelled hcounted htopmost hbalanced
    refine ⟨hspelled, ?_, htopmost, ?_⟩
    · rw [hcounted]
      cases hfake : entry.fake <;> simp [setLevels, hfake]
    · rw [hbalanced]
      cases hfake : entry.fake <;> simp [setLevels, hfake]

theorem disciplined_closeTimes (n : Nat) (h : Disciplined s) :
    Disciplined (s.closeTimes b n) := by
  induction n generalizing s with
  | zero => exact h
  | succ n ih => exact ih (disciplined_closeSubKey h)

theorem disciplined_openLoop {canCreate : Bool} {path : List UnicodeString} (result : Bool)
    (opens : Nat) (h : Disciplined s) (hfits : PathFits b c canCreate path s) :
    Disciplined (openLoop b c canCreate path result opens s).2.2 := by
  induction path generalizing result opens s with
  | nil => exact h
  | cons subKey rest ih =>
    exact ih _ _ (disciplined_openKnown (disciplined_resolveRoot h) hfits.1) hfits.2

theorem disciplined_step {s t : THierarchicalStorage β} {action : KeyAction}
    (h : Disciplined s) (hfits : StepFits b c s action) (hstep : s.step b c action = some t) :
    Disciplined t := by
  cases action with
  | openKey subKey canCreate =>
    obtain rfl := Option.some.inj hstep
    exact disciplined_openKnown (disciplined_resolveRoot h) hfits
  | closeKey =>
    obtain rfl := Option.some.inj hstep
    exact disciplined_closeSubKey h
  | openPath path canCreate =>
    obtain rfl := Option.some.inj hstep
    have hloop := disciplined_openLoop false 0 h hfits
    rw [openSubKeyPath]
    generalize openLoop b c canCreate (keyPath path) false 0 s = loop at hloop
    dsimp only
    split
    · exact disciplined_setLevels _ hloop
    · exact disciplined_closeTimes _ hloop
  | closePath =>
    obtain rfl := Option.some.inj hstep
    rw [closeSubKeyPath]
    split
    · exact h
    · exact disciplined_closeTimes _ (disciplined_setLevels 1 h)

variable (b c)

/-- The history of keys is kept in order by every sequence of calls that open
keys without harm. -/
theorem keyDiscipline_reaches {backend : β} {s : THierarchicalStorage β}
    (h : Reaches (step b c) (StepFits b c) { backend := backend } s) : KeyDiscipline s := by
  have h0 : Disciplined ({ backend := backend } : THierarchicalStorage β) :=
    ⟨trivial, rfl, trivial, rfl⟩
  exact (h.invariant h0 fun _ _ _ => disciplined_step).keyDiscipline

end THierarchicalStorage

/-- A configuration for names of ASCII characters. -/
def plainConfig : KeyConfig where
  api := {
    text := asciiText
    reader := utf8Reader
    ansiToString := fun bytes => bytes.map (·.toUInt16) }

/-- The registry storage under `S`, with the given keys. -/
def plainStorage (keys : List UnicodeString) : THierarchicalStorage TRegistry :=
  { backend := { keys := keys } }

def plainStep : THierarchicalStorage TRegistry → KeyAction → Option (THierarchicalStorage TRegistry) :=
  THierarchicalStorage.step (registryBackend plainConfig (wstr "S\\")) plainConfig

def plainFits : THierarchicalStorage TRegistry → KeyAction → Prop :=
  THierarchicalStorage.StepFits (registryBackend plainConfig (wstr "S\\")) plainConfig

theorem keyDiscipline_nested : ∃ s, Reaches plainStep plainFits (plainStorage []) s ∧
    s.currentSubKeyMunged = wstr "a\\b\\" ∧ KeyDiscipline s := by
  have hpath : keyPath (wstr "a\\b") = [wstr "a", wstr "b"] := by decide
  have hfits : plainFits (plainStorage []) (.openPath (wstr "a\\b") true) := by
    show THierarchicalStorage.PathFits _ _ true (keyPath (wstr "a\\b")) (plainStorage [])
    rw [hpath]
    refine ⟨⟨?_, ?_, ?_⟩, ⟨?_, ?_, ?_⟩, trivial⟩
    all_goals decide +kernel
  have hreaches : Reaches plainStep plainFits (plainStorage [])
      ((plainStep (plainStorage []) (.openPath (wstr "a\\b") true)).getD (plainStorage [])) :=
    .tail .refl hfits rfl
  refine ⟨_, hreaches, ?_, ?_⟩
  · decide +kernel
  · exact THierarchicalStorage.keyDiscipline_reaches _ _ hreaches

/-- A key inside one whose name is munged is entered under another name. -/
theorem munged_not_disciplined : ∃ s, Reaches plainStep (fun _ _ => True) (plainStorage []) s ∧
    ¬ KeyDiscipline s := by
  have hrun : (runs plainStep (fun _ _ => True) (plainStorage [])
      [.openKey (wstr "my key") true, .openKey (wstr "a") true]).map
        (fun s => (s.currentSubKeyMunged, composed s.keyHistory)) =
      some (wstr "my key\\a\\", wstr "my%20key\\a\\") := by decide +kernel
  obtain ⟨s, hreaches, hkeys⟩ := exists_reaches hrun
  refine ⟨s, hreaches, fun h => ?_⟩
  obtain ⟨hcurrent, hcomposed⟩ := Prod.mk.inj hkeys
  have hsame := h.current
  rw [hcurrent, hcomposed] at hsame
  exact absurd hsame (by decide)

end NetBox.Storage
