import NetBox.Base.PathResolution
import NetBox.Session.ParseUrl
import Mathlib.Data.List.Nodup
import Mathlib.Logic.Relation

/-! # Folders of stored sessions

The panel shows the stored sessions as a tree that is made of their names. `GetFindDataEx` lists
one folder of it, `SetDirectoryEx` enters a folder, and `ProcessSessions` goes through all
sessions whose names begin with a folder. Names are compared as they are, but folders that are
listed are compared without regard to case.

The stored sessions are as `Load` leaves them, with the hidden ones in front and counted.
`AtObject` skips as many as are hidden, but `GetObj` gives none of as many at the end. Nothing
comes of a null pointer that is dereferenced.
-/
namespace NetBox.Session
open Base.Text Lib.Segments List

inductive PanelItem
  | session (name : UnicodeString)
  | folder (name : UnicodeString)
  | hint
deriving DecidableEq, Repr

structure PanelItems where
  childPaths : List UnicodeString := []
  items : List PanelItem := []

/-- One session, for the folder with its slash. -/
def listSession (t : TextApi) (folder : UnicodeString) (panel : PanelItems)
    (sessionName : UnicodeString) : PanelItems :=
  if sessionName.take folder.length = folder then
    let name := sessionName.drop folder.length
    match name.idxOf? slash with
    | some pSlash =>
      let name := name.take pSlash
      if panel.childPaths.any (t.sameText · name) then panel
      else ⟨panel.childPaths ++ [name], panel.items ++ [.folder name]⟩
    | none => { panel with items := panel.items ++ [.session sessionName] }
  else panel

def getHiddenCount (sessions : List UnicodeString) : Nat := sessions.countP isHidden

def getCount (sessions : List UnicodeString) : Nat := sessions.length - getHiddenCount sessions

def getSession (sessions : List UnicodeString) (index : Nat) : Option UnicodeString :=
  if index + getHiddenCount sessions < getCount sessions then
    sessions[index + getHiddenCount sessions]?
  else none

/-- The items of a folder. -/
def getFindDataEx (t : TextApi) (sessions : List UnicodeString)
    (sessionsFolder newSessionsFolder : UnicodeString) : Option (List PanelItem) := do
  let folder := if sessionsFolder ≠ [] then unixIncludeTrailingBackslash sessionsFolder
    else sessionsFolder
  let panel ← (List.range (getCount sessions)).foldlM (fun panel index =>
    (getSession sessions index).map (listSession t folder panel)) {}
  let items := if newSessionsFolder ≠ [] then panel.items ++ [.folder newSessionsFolder]
    else panel.items
  if items.isEmpty then pure [.hint] else pure items

def setDirectoryEx (sessionsFolder dir : UnicodeString) : UnicodeString :=
  (absolutePath (slash :: sessionsFolder) dir).drop 1

/-- What is done with a session. -/
inductive ProcessSession
  | deleteSession
  | exportSession

/-- The stored sessions afterwards. -/
def ProcessSession.run : ProcessSession → List UnicodeString → UnicodeString → List UnicodeString
  | deleteSession, sessions, data => sessions.erase data
  | exportSession, sessions, _ => sessions

structure Processing where
  sessions : List UnicodeString
  processed : List UnicodeString := []

def Processing.process (action : ProcessSession) (p : Processing) (data : UnicodeString) :
    Processing :=
  ⟨action.run p.sessions data, p.processed ++ [data]⟩

/-- The loop over the sessions of a folder. In each round the index comes nearer to the end of
the list. -/
def processFolder (action : ProcessSession) (folder : UnicodeString) :
    Nat → Nat → Processing → Option Processing
  | 0, _, p => some p
  | fuel + 1, index, p =>
    if index < getCount p.sessions then do
      let data ← getSession p.sessions index
      if data.take folder.length = folder then
        let p := p.process action data
        processFolder action folder fuel
          (if index < getCount p.sessions ∧ getSession p.sessions index ≠ some data then index
            else index + 1) p
      else processFolder action folder fuel (index + 1) p
    else some p

def processItem (action : ProcessSession) (sessionsFolder : UnicodeString) (p : Processing) :
    PanelItem → Option Processing
  | .session name => some (p.process action name)
  | .folder name =>
    processFolder action
      (unixIncludeTrailingBackslash (unixCombinePaths sessionsFolder name)) p.sessions.length 0 p
  | .hint => some p

def processSessions (action : ProcessSession) (sessionsFolder : UnicodeString)
    (panelItems : List PanelItem) (sessions : List UnicodeString) : Option Processing :=
  panelItems.foldlM (processItem action sessionsFolder) ⟨sessions, []⟩

/-! ## Names and their components -/

/-- The text of components. -/
def textOf (components : List Component) : UnicodeString := (ended slash components).dropLast

variable {t : TextApi} {dirs rest components : List Component} {c leaf : Component}

theorem textOf_concat (dirs : List Component) (leaf : Component) :
    textOf (dirs ++ [leaf]) = ended slash dirs ++ leaf := by
  rw [textOf, ended_concat, dropLast_concat]

theorem textOf_append_slash (h : components ≠ []) :
    textOf components ++ [slash] = ended slash components := by
  obtain ⟨front, last, rfl⟩ := (eq_nil_or_concat components).resolve_left h
  rw [concat_eq_append, textOf_concat, ended_concat]

theorem textOf_cons_cons (c : Component) (h : rest ≠ []) :
    textOf (c :: rest) = c ++ slash :: textOf rest := by
  obtain ⟨front, last, rfl⟩ := (eq_nil_or_concat rest).resolve_left h
  rw [concat_eq_append, ← cons_append, textOf_concat, textOf_concat, ended_cons]
  simp

theorem slash_textOf (components : List Component) :
    slash :: textOf components = absolute components := by
  by_cases h : components = []
  · rw [h]
    rfl
  · have hslash : slash :: textOf components ++ [slash] = started slash components ++ [slash] := by
      rw [started_concat_sep, cons_append, textOf_append_slash h]
    rw [absolute, if_neg h]
    exact append_cancel_right hslash

theorem directory_root : Directory [] := ⟨by simp, by simp [SlashFree]⟩

theorem directory_of_subset (h : Directory components) (hsub : dirs ⊆ components) :
    Directory dirs :=
  ⟨fun c hc => h.names c (hsub hc), fun c hc => h.free c (hsub hc)⟩

theorem textOf_ne_nil (h : Directory components) (hne : components ≠ []) :
    textOf components ≠ [] := by
  obtain ⟨front, last, rfl⟩ := (eq_nil_or_concat components).resolve_left hne
  rw [concat_eq_append] at h ⊢
  rw [textOf_concat]
  exact append_ne_nil_of_right_ne_nil _ (h.names last (by simp)).1

/-- A slash is added to the text of a folder that is not the root. -/
theorem include_textOf (h : Directory components) (hne : components ≠ []) :
    unixIncludeTrailingBackslash (textOf components) = ended slash components := by
  have htext := textOf_ne_nil h hne
  have hends :
      endsIn [slash] (slash :: textOf components) = endsIn [slash] (textOf components) := by
    obtain ⟨ch, text, hcons⟩ := exists_cons_of_ne_nil htext
    rw [endsIn, endsIn, hcons, getLast?_cons_cons]
  have habsolute := include_absolute h
  rw [← slash_textOf, pathText, started_concat_sep, unixIncludeTrailingBackslash,
    isDelimiter_length, hends] at habsolute
  rw [unixIncludeTrailingBackslash, isDelimiter_length]
  cases hlast : endsIn [slash] (textOf components) <;> simp_all

theorem folder_textOf (h : Directory components) :
    (if textOf components ≠ [] then unixIncludeTrailingBackslash (textOf components)
      else textOf components) = ended slash components := by
  by_cases hne : components = []
  · rw [hne]
    rfl
  · rw [if_pos (textOf_ne_nil h hne), include_textOf h hne]

theorem segment_inj {a b : Component} {x y : UnicodeString} (ha : slash ∉ a) (hb : slash ∉ b)
    (h : a ++ slash :: x = b ++ slash :: y) : a = b ∧ x = y := by
  have hsame := congrArg (List.takeWhile (· != slash)) h
  rw [takeWhile_until ha, takeWhile_until hb] at hsame
  refine ⟨hsame, ?_⟩
  rw [hsame] at h
  exact (List.cons.inj (append_cancel_left h)).2

/-- A name begins with a folder just when its components do. -/
theorem prefix_textOf_iff (hdirs : SlashFree dirs) (h : SlashFree components)
    (hne : components ≠ []) :
    (textOf components).take (ended slash dirs).length = ended slash dirs ↔
      ∃ rest, rest ≠ [] ∧ components = dirs ++ rest := by
  rw [eq_comm, ← prefix_iff_eq_take]
  induction dirs generalizing components with
  | nil => exact ⟨fun _ => ⟨components, hne, rfl⟩, fun _ => List.nil_prefix⟩
  | cons d dirs ih =>
    obtain ⟨hd, hfree⟩ := forall_mem_cons.mp hdirs
    obtain ⟨c, tail, rfl⟩ := exists_cons_of_ne_nil hne
    obtain ⟨hc, htail⟩ := forall_mem_cons.mp h
    rw [ended_cons]
    by_cases hlast : tail = []
    · constructor
      · rintro ⟨z, hz⟩
        rw [hlast, append_assoc] at hz
        exact absurd (hz ▸ by simp : slash ∈ textOf [c]) (by simpa [textOf] using hc)
      · rintro ⟨rest, hrest, heq⟩
        simp [hlast] at heq
        exact absurd heq.2.2 hrest
    · rw [textOf_cons_cons c hlast]
      constructor
      · rintro ⟨z, hz⟩
        rw [append_assoc, cons_append] at hz
        obtain ⟨rfl, htext⟩ := segment_inj hd hc hz
        obtain ⟨rest, hrest, rfl⟩ := (ih hfree htail hlast).mp ⟨z, htext⟩
        exact ⟨rest, hrest, rfl⟩
      · rintro ⟨rest, hrest, heq⟩
        obtain ⟨rfl, rfl⟩ := List.cons.inj heq
        obtain ⟨z, hz⟩ := (ih hfree htail hlast).mpr ⟨rest, hrest, rfl⟩
        exact ⟨z, by rw [← hz]; simp⟩

theorem textOf_append (dirs : List Component) (h : rest ≠ []) :
    textOf (dirs ++ rest) = ended slash dirs ++ textOf rest := by
  obtain ⟨front, last, rfl⟩ := (eq_nil_or_concat rest).resolve_left h
  rw [concat_eq_append, ← append_assoc, textOf_concat, textOf_concat, ended_append,
    append_assoc]

/-! ## What one session adds to a folder -/

variable {panel : PanelItems}

theorem listSession_leaf (hleaf : slash ∉ leaf) :
    listSession t (ended slash dirs) panel (textOf (dirs ++ [leaf])) =
      { panel with items := panel.items ++ [.session (textOf (dirs ++ [leaf]))] } := by
  rw [textOf_concat, listSession, if_pos (by simp)]
  simp only [drop_left, idxOf?_eq_none_iff.mpr hleaf]

theorem listSession_folder (hc : slash ∉ c) (hrest : rest ≠ []) :
    listSession t (ended slash dirs) panel (textOf (dirs ++ c :: rest)) =
      if panel.childPaths.any (t.sameText · c) then panel
      else ⟨panel.childPaths ++ [c], panel.items ++ [.folder c]⟩ := by
  rw [textOf_append dirs (by simp), textOf_cons_cons c hrest, listSession, if_pos (by simp)]
  simp only [drop_left, idxOf?_segment hc, take_left]

theorem listSession_other (hdirs : SlashFree dirs) (h : SlashFree components)
    (hne : components ≠ []) (hother : ¬ ∃ rest, rest ≠ [] ∧ components = dirs ++ rest) :
    listSession t (ended slash dirs) panel (textOf components) = panel := by
  rw [listSession, if_neg]
  rwa [prefix_textOf_iff hdirs h hne]

/-- The session that an item is. -/
def PanelItem.sessionName : PanelItem → Option UnicodeString
  | session name => some name
  | folder _ | hint => none

/-- What a folder shows of the sessions that were gone through. -/
structure Listed (t : TextApi) (dirs : List Component) (done : List (List Component))
    (panel : PanelItems) : Prop where
  sessions : panel.items.filterMap PanelItem.sessionName =
    (done.filter fun components => components.dropLast = dirs).map textOf
  folders : ∀ name, .folder name ∈ panel.items ↔ name ∈ panel.childPaths
  apart : panel.childPaths.Pairwise fun a b => t.sameText a b = false
  sub : ∀ name ∈ panel.childPaths, ∃ rest, rest ≠ [] ∧ dirs ++ name :: rest ∈ done
  cover : ∀ c rest, rest ≠ [] → dirs ++ c :: rest ∈ done →
    ∃ name ∈ panel.childPaths, t.sameText name c = true

theorem listed_nil (t : TextApi) (dirs : List Component) : Listed t dirs [] {} where
  sessions := rfl
  folders name := by simp
  apart := List.Pairwise.nil
  sub name h := by cases h
  cover c rest _ h := by cases h

variable {done : List (List Component)}

/-- The folders of the panel stay when one more session is gone through. -/
theorem Listed.grow (h : Listed t dirs done panel) {panel' : PanelItems}
    (hsessions : panel'.items.filterMap PanelItem.sessionName =
      ((done ++ [components]).filter fun s => s.dropLast = dirs).map textOf)
    (hfolders : ∀ name, .folder name ∈ panel'.items ↔ name ∈ panel'.childPaths)
    (hapart : panel'.childPaths.Pairwise fun a b => t.sameText a b = false)
    (hkept : panel.childPaths ⊆ panel'.childPaths)
    (hsub : ∀ name ∈ panel'.childPaths, name ∈ panel.childPaths ∨
      ∃ rest, rest ≠ [] ∧ components = dirs ++ name :: rest)
    (hcover : ∀ c rest, rest ≠ [] → components = dirs ++ c :: rest →
      ∃ name ∈ panel'.childPaths, t.sameText name c = true) :
    Listed t dirs (done ++ [components]) panel' where
  sessions := hsessions
  folders := hfolders
  apart := hapart
  sub name hname := by
    rcases hsub name hname with hname | ⟨rest, hrest, heq⟩
    · obtain ⟨rest, hrest, hmem⟩ := h.sub name hname
      exact ⟨rest, hrest, mem_append_left _ hmem⟩
    · exact ⟨rest, hrest, by simp [heq]⟩
  cover c rest hrest hmem := by
    rcases mem_append.mp hmem with hmem | hmem
    · obtain ⟨name, hname, hsame⟩ := h.cover c rest hrest hmem
      exact ⟨name, hkept hname, hsame⟩
    · exact hcover c rest hrest (mem_singleton.mp hmem).symm

theorem Listed.addSession (h : Listed t dirs done panel) (hleaf : slash ∉ leaf) :
    Listed t dirs (done ++ [dirs ++ [leaf]])
      (listSession t (ended slash dirs) panel (textOf (dirs ++ [leaf]))) := by
  rw [listSession_leaf hleaf]
  refine h.grow ?_ ?_ h.apart (List.Subset.refl _) (fun _ => .inl) ?_
  · simp [h.sessions, PanelItem.sessionName]
  · intro name
    simpa using h.folders name
  · intro c rest hrest heq
    exact absurd (List.cons.inj (append_cancel_left heq)).2.symm hrest

theorem Listed.addFolder (h : Listed t dirs done panel) (hc : slash ∉ c) (hrest : rest ≠ []) :
    Listed t dirs (done ++ [dirs ++ c :: rest])
      (listSession t (ended slash dirs) panel (textOf (dirs ++ c :: rest))) := by
  have hdrop : (c :: rest).dropLast ≠ [] := by simp [dropLast_cons_of_ne_nil hrest]
  have hcover : ∀ {paths : List UnicodeString}, (∃ name ∈ paths, t.sameText name c = true) →
      ∀ c' rest', rest' ≠ [] → dirs ++ c :: rest = dirs ++ c' :: rest' →
        ∃ name ∈ paths, t.sameText name c' = true := by
    intro paths hpath c' rest' _ heq
    rwa [← (List.cons.inj (append_cancel_left heq)).1]
  rw [listSession_folder hc hrest]
  split
  next hany =>
    exact h.grow (by simp [h.sessions, hdrop]) h.folders h.apart (List.Subset.refl _)
      (fun _ => .inl) (hcover (by simpa using hany))
  next hany =>
    have hnew : ∀ name ∈ panel.childPaths, t.sameText name c = false := by simpa using hany
    refine h.grow ?_ ?_ ?_ (subset_append_left _ _) ?_
      (hcover ⟨c, by simp, t.text.same_refl c⟩)
    · simp [h.sessions, hdrop, PanelItem.sessionName]
    · intro name
      simp [h.folders name]
    · rw [pairwise_append]
      refine ⟨h.apart, pairwise_singleton _ _, fun a ha b hb => ?_⟩
      rw [mem_singleton.mp hb]
      exact hnew a ha
    · intro name hname
      refine (mem_append.mp hname).imp_right fun hname => ?_
      rw [mem_singleton.mp hname]
      exact ⟨rest, hrest, rfl⟩

theorem Listed.skip (h : Listed t dirs done panel) (hdirs : SlashFree dirs)
    (hfree : SlashFree components) (hne : components ≠ [])
    (hother : ¬ ∃ rest, rest ≠ [] ∧ components = dirs ++ rest) :
    Listed t dirs (done ++ [components])
      (listSession t (ended slash dirs) panel (textOf components)) := by
  have hdrop : ¬ components.dropLast = dirs := by
    rintro rfl
    exact hother ⟨[components.getLast hne], by simp, (dropLast_append_getLast hne).symm⟩
  rw [listSession_other hdirs hfree hne hother]
  exact h.grow (by simp [h.sessions, hdrop]) h.folders h.apart (List.Subset.refl _)
    (fun _ => .inl) fun c rest _ heq => absurd ⟨c :: rest, by simp, heq⟩ hother

/-- The names of the stored sessions. -/
structure SessionNames (sessions : List (List Component)) : Prop where
  nonempty : ∀ s ∈ sessions, s ≠ []
  directory : ∀ s ∈ sessions, Directory s
  nodup : sessions.Nodup

def panelOf (t : TextApi) (sessions : List (List Component)) (dirs : List Component) : PanelItems :=
  (sessions.map textOf).foldl (listSession t (ended slash dirs)) {}

theorem foldl_listed {sessions : List (List Component)} (hdirs : SlashFree dirs)
    (hnames : ∀ s ∈ sessions, s ≠ [] ∧ SlashFree s) (h : Listed t dirs done panel) :
    Listed t dirs (done ++ sessions)
      ((sessions.map textOf).foldl (listSession t (ended slash dirs)) panel) := by
  induction sessions generalizing done panel with
  | nil => simpa using h
  | cons s sessions ih =>
    obtain ⟨⟨hne, hfree⟩, hrest⟩ := forall_mem_cons.mp hnames
    rw [map_cons, foldl_cons, append_cons]
    refine ih hrest ?_
    by_cases hother : ∃ rest, rest ≠ [] ∧ s = dirs ++ rest
    · obtain ⟨rest, hrest, rfl⟩ := hother
      obtain ⟨c, tail, rfl⟩ := exists_cons_of_ne_nil hrest
      have hc : slash ∉ c := hfree c (by simp)
      by_cases htail : tail = []
      · rw [htail]
        exact h.addSession hc
      · exact h.addFolder hc htail
    · exact h.skip hdirs hfree hne hother

theorem listed_panelOf {sessions : List (List Component)} (hnames : SessionNames sessions)
    (hdirs : SlashFree dirs) : Listed t dirs sessions (panelOf t sessions dirs) :=
  foldl_listed hdirs (fun s hs => ⟨hnames.nonempty s hs, (hnames.directory s hs).free⟩)
    (listed_nil t dirs)

/-! ## Items of a folder -/

section
variable {sessions : List (List Component)} {name : UnicodeString}

/-- The items that a folder shows, if it can be listed. -/
def shown (t : TextApi) (sessions : List (List Component)) (folder : UnicodeString) :
    List PanelItem :=
  (getFindDataEx t (sessions.map textOf) folder []).getD []

/-- Names of which none is hidden. -/
structure VisibleNames (sessions : List (List Component)) : Prop extends SessionNames sessions where
  visible : ∀ s ∈ sessions, isHidden (textOf s) = false

theorem getSession_visible {names : List UnicodeString} (h : ∀ data ∈ names, isHidden data = false) :
    getCount names = names.length ∧ ∀ index, getSession names index = names[index]? := by
  have hnone : getHiddenCount names = 0 := countP_eq_zero.mpr fun data hdata => by simp [h data hdata]
  have hcount : getCount names = names.length := by rw [getCount, hnone, Nat.sub_zero]
  refine ⟨hcount, fun index => ?_⟩
  rw [getSession, hcount, hnone, Nat.add_zero]
  split
  · rfl
  · exact (getElem?_eq_none (Nat.not_lt.mp ‹_›)).symm

theorem VisibleNames.map (hnames : VisibleNames sessions) :
    ∀ data ∈ sessions.map textOf, isHidden data = false := by
  intro data hdata
  obtain ⟨s, hs, rfl⟩ := mem_map.mp hdata
  exact hnames.visible s hs

/-- The loop of the listing goes through all sessions. -/
theorem foldlM_getSession {names : List UnicodeString} (h : ∀ data ∈ names, isHidden data = false)
    (folder : UnicodeString) :
    ((List.range (getCount names)).foldlM (fun panel index =>
      (getSession names index).map (listSession t folder panel)) {}) =
      some (names.foldl (listSession t folder) {}) := by
  obtain ⟨hcount, hget⟩ := getSession_visible h
  suffices hrun : ∀ k ≤ names.length, (List.range k).foldlM (fun panel index =>
      (getSession names index).map (listSession t folder panel)) {} =
        some ((names.take k).foldl (listSession t folder) {}) by
    rw [hcount, hrun _ (Nat.le_refl _), take_length]
  intro k hk
  induction k with
  | zero => rfl
  | succ k ih =>
    rw [range_succ, foldlM_append, ih (Nat.le_of_succ_le hk), take_succ_eq_append_getElem hk,
      foldl_append]
    simp [hget, getElem?_eq_getElem hk]

theorem shown_textOf (hnames : VisibleNames sessions) (h : Directory dirs) :
    shown t sessions (textOf dirs) =
      if (panelOf t sessions dirs).items.isEmpty then [.hint]
      else (panelOf t sessions dirs).items := by
  rw [shown, getFindDataEx, folder_textOf h, foldlM_getSession hnames.map]
  show (if (panelOf t sessions dirs).items.isEmpty then some [.hint]
    else some (panelOf t sessions dirs).items).getD [] = _
  split <;> rfl

/-- With a hidden session nothing is shown: the last one of the others cannot be read. -/
theorem shown_hidden {s : List Component} (hs : s ∈ sessions) (hhidden : isHidden (textOf s) = true)
    (folder : UnicodeString) : ∀ item ∈ shown t sessions folder, item = .hint := by
  have hpos : 0 < getHiddenCount (sessions.map textOf) :=
    countP_pos_iff.mpr ⟨textOf s, mem_map_of_mem hs, hhidden⟩
  rw [shown, getFindDataEx]
  generalize hcount : getCount (sessions.map textOf) = count
  cases count with
  | zero => simp
  | succ count =>
    have hlast : getSession (sessions.map textOf) count = none := by
      rw [getSession, if_neg (by omega)]
    rw [range_succ, foldlM_append]
    simp [hlast]

theorem folder_mem_iff (hnames : VisibleNames sessions) (h : Directory dirs) :
    .folder name ∈ shown t sessions (textOf dirs) ↔ name ∈ (panelOf t sessions dirs).childPaths := by
  rw [shown_textOf hnames h, ← (listed_panelOf hnames.toSessionNames h.free).folders]
  split
  next hempty => simp [List.isEmpty_iff.mp hempty]
  next => rfl

theorem count_session (hnames : VisibleNames sessions) (h : Directory dirs) :
    (shown t sessions (textOf dirs)).count (.session name) =
      ((sessions.filter fun s => s.dropLast = dirs).map textOf).count name := by
  have hcount : ∀ items : List PanelItem, items.count (.session name) =
      (items.filterMap PanelItem.sessionName).count name := by
    intro items
    induction items with
    | nil => rfl
    | cons item items ih =>
      cases item with
      | session other => simp [PanelItem.sessionName, count_cons, ih]
      | folder other | hint =>
        rw [filterMap_cons_none rfl, ← ih]
        simp
  rw [shown_textOf hnames h, ← (listed_panelOf (t := t) hnames.toSessionNames h.free).sessions, ← hcount]
  split
  next hempty => simp [List.isEmpty_iff.mp hempty]
  next => rfl

theorem textOf_inj {a b : List Component} (ha : a ≠ []) (hb : b ≠ []) (hfree : SlashFree a)
    (hfree' : SlashFree b) (h : textOf a = textOf b) : a = b := by
  have hended : ended slash a ++ [] = ended slash b ++ [] := by
    rw [append_nil, append_nil, ← textOf_append_slash ha, ← textOf_append_slash hb, h]
  have hsplit := congrArg (split slash) hended
  rw [split_ended hfree (by simp), split_ended hfree' (by simp)] at hsplit
  exact congrArg Prod.fst hsplit

theorem SessionNames.eq_of_textOf (hnames : SessionNames sessions) {s s' : List Component}
    (hs : s ∈ sessions) (hs' : s' ∈ sessions) (h : textOf s = textOf s') : s = s' :=
  textOf_inj (hnames.nonempty s hs) (hnames.nonempty s' hs') (hnames.directory s hs).free
    (hnames.directory s' hs').free h

theorem SessionNames.nodup_map (hnames : SessionNames sessions) : (sessions.map textOf).Nodup :=
  hnames.nodup.map_on fun _ hs _ hs' h => hnames.eq_of_textOf hs hs' h

variable {s : List Component}

/-- A session is listed in the folder of its name, once, and in no other. -/
theorem session_mem_iff (hnames : VisibleNames sessions) (h : Directory dirs) (hs : s ∈ sessions) :
    .session (textOf s) ∈ shown t sessions (textOf dirs) ↔ s.dropLast = dirs := by
  rw [← count_pos_iff, count_session hnames h, count_pos_iff]
  constructor
  · intro hmem
    obtain ⟨s', hs', htext⟩ := mem_map.mp hmem
    rw [mem_filter, decide_eq_true_eq] at hs'
    rw [← hnames.eq_of_textOf hs'.1 hs htext]
    exact hs'.2
  · intro hdrop
    exact mem_map.mpr ⟨s, mem_filter.mpr ⟨hs, decide_eq_true hdrop⟩, rfl⟩

theorem count_session_one (hnames : VisibleNames sessions) (hs : s ∈ sessions) :
    (shown t sessions (textOf s.dropLast)).count (.session (textOf s)) = 1 := by
  have hdirectory : Directory s.dropLast :=
    directory_of_subset (hnames.directory s hs) (dropLast_subset s)
  have hmem := (session_mem_iff (t := t) hnames hdirectory hs).mpr rfl
  refine Nat.le_antisymm ?_ (count_pos_iff.mpr hmem)
  rw [count_session hnames hdirectory]
  exact nodup_iff_count_le_one.mp
    ((filter_sublist.map textOf).nodup hnames.nodup_map) _

/-! ## Entering folders -/

theorem setDirectoryEx_textOf (h : Directory dirs) (hc : IsName c) (hfree : slash ∉ c) :
    setDirectoryEx (textOf dirs) c = textOf (dirs ++ [c]) := by
  have hcut : cut slash c = [c] := by
    rw [cut, split_last hfree]
    simp [hc.1]
  have hhead : c.head? ≠ some slash := fun hhead => hfree (mem_of_head? hhead)
  have hnames : ∀ d ∈ dirs ++ [c], IsName d := by
    intro d hd
    rcases mem_append.mp hd with hd | hd
    · exact h.names d hd
    · rw [mem_singleton.mp hd]
      exact hc
  have hup : parentDirectory ∉ dirs ++ [c] := fun hmem => (hnames _ hmem).2.2 rfl
  have hfilter : (dirs ++ [c]).filter (· ≠ thisDirectory) = dirs ++ [c] :=
    filter_eq_self.mpr fun d hd => decide_eq_true (hnames d hd).2.1
  rw [setDirectoryEx, slash_textOf, (absolutePath_eq h hc.1 hhead).2, hcut, climb_self hup, hfilter,
    ← slash_textOf]
  rfl

/-- A folder that is listed leads to the folder of its components. -/
theorem directory_folder (hnames : VisibleNames sessions) (h : Directory dirs)
    (hmem : name ∈ (panelOf t sessions dirs).childPaths) :
    Directory (dirs ++ [name]) ∧ setDirectoryEx (textOf dirs) name = textOf (dirs ++ [name]) := by
  obtain ⟨rest, -, hs⟩ := (listed_panelOf hnames.toSessionNames h.free).sub name hmem
  have hdirectory : Directory (dirs ++ [name]) :=
    directory_of_subset (hnames.directory _ hs) (by simp)
  exact ⟨hdirectory, setDirectoryEx_textOf h (hdirectory.names name (by simp))
    (hdirectory.free name (by simp))⟩

/-- A listed folder is entered. -/
def Enters (t : TextApi) (sessions : List (List Component)) (folder folder' : UnicodeString) :
    Prop :=
  ∃ name, .folder name ∈ shown t sessions folder ∧ folder' = setDirectoryEx folder name

def LeadsTo (t : TextApi) (sessions : List (List Component)) :
    UnicodeString → UnicodeString → Prop :=
  Relation.ReflTransGen (Enters t sessions)

/-- Every component is listed in the folder of those before it. -/
def Open (t : TextApi) (sessions : List (List Component)) (dirs more : List Component) : Prop :=
  ∀ front c back, more = front ++ c :: back → c ∈ (panelOf t sessions (dirs ++ front)).childPaths

theorem reached_iff (hnames : VisibleNames sessions) (h : Directory dirs) (folder : UnicodeString) :
    LeadsTo t sessions (textOf dirs) folder ↔ ∃ more, folder = textOf (dirs ++ more) ∧
      Directory (dirs ++ more) ∧ Open t sessions dirs more := by
  constructor
  · intro hreached
    induction hreached with
    | refl =>
      refine ⟨[], by simp, by simpa using h, fun front c back heq => ?_⟩
      simp at heq
    | tail _ hstep ih =>
      obtain ⟨more, rfl, hmore, hopen⟩ := ih
      obtain ⟨name, hmem, rfl⟩ := hstep
      rw [folder_mem_iff hnames hmore] at hmem
      obtain ⟨hdirectory, hset⟩ := directory_folder hnames hmore hmem
      rw [append_assoc] at hdirectory hset
      refine ⟨more ++ [name], hset, hdirectory, fun front c back heq => ?_⟩
      rcases eq_nil_or_concat back with rfl | ⟨back, last, rfl⟩
      · obtain ⟨rfl, hlast⟩ := append_inj' heq rfl
        cases hlast
        exact hmem
      · rw [concat_eq_append, ← cons_append, ← append_assoc] at heq
        exact hopen front c back (append_inj' heq rfl).1
  · rintro ⟨more, rfl, hmore, hopen⟩
    induction more using List.reverseRecOn with
    | nil =>
      rw [append_nil]
      exact .refl
    | append_singleton more name ih =>
      have hbefore : Directory (dirs ++ more) := by
        rw [← append_assoc] at hmore
        exact directory_of_subset hmore (subset_append_left _ _)
      have hlisted := hopen more name [] rfl
      refine (ih hbefore fun front c back heq => ?_).tail
        ⟨name, (folder_mem_iff hnames hbefore).mpr hlisted, ?_⟩
      · exact hopen front c (back ++ [name]) (by rw [heq]; simp)
      · rw [(directory_folder hnames hbefore hlisted).2, append_assoc]

/-! ## Processing a folder -/

theorem processFolder_end {action : ProcessSession} {folder : UnicodeString} {index : Nat}
    {p : Processing} (h : getCount p.sessions ≤ index) (fuel : Nat) :
    processFolder action folder fuel index p = some p := by
  cases fuel with
  | zero => rfl
  | succ fuel => rw [processFolder, if_neg (Nat.not_lt.mpr h)]

/-- What is left of some sessions when those of a folder were processed. -/
def ProcessSession.left (folder : UnicodeString) (names : List UnicodeString) :
    ProcessSession → List UnicodeString
  | deleteSession => names.filter fun data => !(data.take folder.length == folder)
  | exportSession => names

/-- The sessions of the folder are processed one after the other, whether they stay in the list
or not. -/
theorem processFolder_eq (action : ProcessSession) (folder : UnicodeString)
    (kept processed : List UnicodeString) {rest : List UnicodeString} {fuel : Nat}
    (hnodup : (kept ++ rest).Nodup) (hvisible : ∀ data ∈ kept ++ rest, isHidden data = false)
    (hfuel : rest.length ≤ fuel) :
    processFolder action folder fuel kept.length ⟨kept ++ rest, processed⟩ =
      some ⟨kept ++ action.left folder rest,
        processed ++ rest.filter fun data => data.take folder.length == folder⟩ := by
  induction rest generalizing kept processed fuel with
  | nil =>
    rw [processFolder_end (by rw [(getSession_visible hvisible).1]; simp)]
    cases action <;> simp [ProcessSession.left]
  | cons data rest ih =>
    cases fuel with
    | zero => cases hfuel
    | succ fuel =>
      have hfuel : rest.length ≤ fuel := Nat.le_of_succ_le_succ hfuel
      obtain ⟨hcount, hget⟩ := getSession_visible hvisible
      have hlt : kept.length < getCount (kept ++ data :: rest) := by simp [hcount]
      have hdata : getSession (kept ++ data :: rest) kept.length = some data := by simp [hget]
      have hnext := fun processed =>
        ih (kept ++ [data]) processed (by simpa using hnodup) (by simpa using hvisible) hfuel
      simp only [append_assoc, singleton_append, length_append, length_singleton] at hnext
      rw [processFolder, if_pos hlt, hdata]
      by_cases hin : data.take folder.length = folder
      · rw [filter_cons_of_pos (by simpa using hin), Option.bind_eq_bind, Option.bind_some, if_pos hin]
        cases action with
        | exportSession =>
          simpa [Processing.process, ProcessSession.run, hdata, ProcessSession.left] using
            hnext (processed ++ [data])
        | deleteSession =>
          obtain ⟨hnew, hboth⟩ := nodup_cons.mp (perm_middle.nodup_iff.mp hnodup)
          have hvisible' : ∀ d ∈ kept ++ rest, isHidden d = false := fun d hd =>
            hvisible d (perm_middle.mem_iff.mpr (mem_cons_of_mem _ hd))
          have herase : (kept ++ data :: rest).erase data = kept ++ rest := by
            rw [erase_append_right _ fun hmem => hnew (mem_append_left _ hmem),
              erase_cons_head]
          obtain ⟨hcount', hget'⟩ := getSession_visible hvisible'
          have hleft : ProcessSession.deleteSession.left folder (data :: rest) =
              ProcessSession.deleteSession.left folder rest :=
            by simp [ProcessSession.left, hin]
          simp only [Processing.process, ProcessSession.run, herase, hcount', hget']
          cases rest with
          | nil =>
            rw [processFolder_end (by rw [hcount']; simp), hleft]
            rfl
          | cons other rest =>
            have hne : other ≠ data := by
              rintro rfl
              exact hnew (by simp)
            rw [if_pos (by simp [hne]), ih kept _ hboth hvisible' hfuel, append_assoc, hleft]
            rfl
      · rw [filter_cons_of_neg (by simpa using hin), Option.bind_eq_bind, Option.bind_some, if_neg hin,
          hnext processed]
        cases action <;> simp [ProcessSession.left, hin]

theorem processed_folder (hnames : VisibleNames sessions) (action : ProcessSession)
    (h : Directory (dirs ++ [name])) :
    ∃ p, processSessions action (textOf dirs) [.folder name] (sessions.map textOf) = some p ∧
      p.processed = (sessions.map textOf).filter fun data =>
        data.take (ended slash (dirs ++ [name])).length == ended slash (dirs ++ [name]) := by
  have hdirs : Directory dirs := directory_of_subset h (subset_append_left _ _)
  have hjoin : unixCombinePaths (textOf dirs) name = textOf (dirs ++ [name]) := by
    rw [unixCombinePaths, textOf_concat]
    by_cases hne : dirs = []
    · rw [hne]
      rfl
    · rw [include_textOf hdirs hne]
  have hrun := processFolder_eq action (ended slash (dirs ++ [name])) [] []
    hnames.nodup_map hnames.map (Nat.le_refl _)
  rw [processSessions, foldlM_cons, processItem, hjoin, include_textOf h (by simp)]
  exact ⟨_, congrArg (Option.bind · _) hrun, rfl⟩

/-! ## The tree -/

/-- What is asked of the panel. -/
structure FoldersRight (t : TextApi) (sessions : List (List Component)) : Prop where
  listed : ∀ s ∈ sessions, LeadsTo t sessions [] (textOf s.dropLast) ∧
    (shown t sessions (textOf s.dropLast)).count (.session (textOf s)) = 1
  only : ∀ s ∈ sessions, ∀ folder, LeadsTo t sessions [] folder →
    .session (textOf s) ∈ shown t sessions folder → folder = textOf s.dropLast
  processed : ∀ action folder name, LeadsTo t sessions [] folder →
    .folder name ∈ shown t sessions folder →
      ∃ p, processSessions action folder [.folder name] (sessions.map textOf) = some p ∧
        p.processed.Nodup ∧ ∀ data, data ∈ p.processed ↔
          data ∈ sessions.map textOf ∧ ∃ folder', LeadsTo t sessions
            (setDirectoryEx folder name) folder' ∧ .session data ∈ shown t sessions folder'

/-- Two folders of the same folder differ in case only. -/
def CaseClash (t : TextApi) (sessions : List (List Component)) : Prop :=
  ∃ dirs c c' rest rest', dirs ++ c :: rest ∈ sessions ∧ dirs ++ c' :: rest' ∈ sessions ∧
    rest ≠ [] ∧ rest' ≠ [] ∧ c ≠ c' ∧ t.sameText c c' = true

/-- Without such folders every folder is listed. -/
theorem folder_listed (hnames : SessionNames sessions) (hclash : ¬ CaseClash t sessions)
    (hdirs : SlashFree dirs) (hrest : rest ≠ []) (hs : dirs ++ c :: rest ∈ sessions) :
    c ∈ (panelOf t sessions dirs).childPaths := by
  have hlisted := listed_panelOf (t := t) hnames hdirs
  obtain ⟨name, hmem, hsame⟩ := hlisted.cover c rest hrest hs
  obtain ⟨rest', hrest', hs'⟩ := hlisted.sub name hmem
  by_contra hnot
  exact hclash ⟨dirs, name, c, rest', rest, hs', hs, hrest', hrest, fun heq => hnot (heq ▸ hmem),
    hsame⟩

theorem open_of_session (hnames : SessionNames sessions) (hclash : ¬ CaseClash t sessions)
    {more : List Component} (hs : dirs ++ more ++ [leaf] ∈ sessions) :
    Open t sessions dirs more := by
  rintro front c back rfl
  refine folder_listed hnames hclash ?_ (append_ne_nil_of_right_ne_nil back
    (cons_ne_nil leaf [])) (by simpa using hs)
  exact fun d hd => (hnames.directory _ hs).free d (by simp at hd ⊢; tauto)

theorem not_right_of_clash (hnames : VisibleNames sessions) (hclash : CaseClash t sessions) :
    ¬ FoldersRight t sessions := by
  obtain ⟨dirs, c, c', rest, rest', hs, hs', hrest, hrest', hne, hsame⟩ := hclash
  intro hright
  have hfolder : ∀ d tail, tail ≠ [] → dirs ++ d :: tail ∈ sessions →
      d ∈ (panelOf t sessions dirs).childPaths := by
    intro d tail htail hmem
    obtain ⟨more, htext, hmore, hopen⟩ :=
      (reached_iff hnames directory_root _).mp (hright.listed _ hmem).1
    have hdrop : (dirs ++ d :: tail).dropLast = dirs ++ d :: tail.dropLast := by
      rw [dropLast_append_of_ne_nil (by simp), dropLast_cons_of_ne_nil htail]
    have hdirectory := directory_of_subset (hnames.directory _ hmem) (dropLast_subset _)
    rw [hdrop] at htext hdirectory
    have hne : more ≠ [] := by
      rintro rfl
      exact textOf_ne_nil hdirectory (by simp) htext
    have heq := textOf_inj (by simp) hne hdirectory.free hmore.free htext
    exact hopen dirs d tail.dropLast heq.symm
  have hsymm : Std.Symm fun a b : UnicodeString => t.sameText a b = false :=
    ⟨fun a b h => Bool.eq_false_iff.mpr fun hsame => Bool.eq_false_iff.mp h
      (t.text.equiv.symm hsame)⟩
  have hapart := (listed_panelOf (t := t) hnames.toSessionNames (fun x hx => (hnames.directory _ hs).free x
    (mem_append_left _ hx))).apart.forall (hfolder c rest hrest hs)
      (hfolder c' rest' hrest' hs') hne
  rw [hsame] at hapart
  cases hapart

section
variable (hnames : VisibleNames sessions) (hclash : ¬ CaseClash t sessions)
include hnames hclash

theorem reached_of_session (dirs : List Component) {more : List Component}
    (hs : dirs ++ more ++ [leaf] ∈ sessions) :
    LeadsTo t sessions (textOf dirs) (textOf (dirs ++ more)) := by
  have hdirectory : Directory (dirs ++ more) :=
    directory_of_subset (hnames.directory _ hs) (subset_append_left _ _)
  have hdirs : Directory dirs := directory_of_subset hdirectory (subset_append_left _ _)
  exact (reached_iff hnames hdirs _).mpr
    ⟨more, rfl, hdirectory, open_of_session hnames.toSessionNames hclash hs⟩

/-- The sessions whose names begin with a folder are those reached through it. -/
theorem prefix_iff_reached (hs : s ∈ sessions) (h : Directory dirs) :
    (textOf s).take (ended slash dirs).length = ended slash dirs ↔
      ∃ folder, LeadsTo t sessions (textOf dirs) folder ∧
        .session (textOf s) ∈ shown t sessions folder := by
  have hne := hnames.nonempty s hs
  rw [prefix_textOf_iff h.free (hnames.directory s hs).free hne]
  constructor
  · rintro ⟨rest, hrest, rfl⟩
    obtain ⟨more, leaf, rfl⟩ := (eq_nil_or_concat rest).resolve_left hrest
    rw [concat_eq_append, ← append_assoc] at hs ⊢
    have hdirectory : Directory (dirs ++ more) :=
      directory_of_subset (hnames.directory _ hs) (subset_append_left _ _)
    exact ⟨textOf (dirs ++ more), reached_of_session hnames hclash dirs hs,
      (session_mem_iff hnames hdirectory hs).mpr dropLast_concat⟩
  · rintro ⟨folder, hreached, hmem⟩
    obtain ⟨more, rfl, hmore, -⟩ := (reached_iff hnames h folder).mp hreached
    have hdrop := (session_mem_iff hnames hmore hs).mp hmem
    refine ⟨more ++ [s.getLast hne], by simp, ?_⟩
    rw [← append_assoc, ← hdrop, dropLast_append_getLast]

theorem right_of_no_clash : FoldersRight t sessions := by
  refine ⟨fun s hs => ⟨?_, count_session_one hnames hs⟩, ?_, ?_⟩
  · rw [← dropLast_append_getLast (hnames.nonempty s hs)] at hs
    exact reached_of_session hnames hclash [] hs
  · intro s hs folder hreached hmem
    obtain ⟨more, rfl, hmore, -⟩ := (reached_iff hnames directory_root folder).mp hreached
    rw [(session_mem_iff hnames hmore hs).mp hmem]
  · intro action folder name hreached hmem
    obtain ⟨dirs, rfl, hdirs, -⟩ := (reached_iff hnames directory_root folder).mp hreached
    rw [folder_mem_iff hnames hdirs] at hmem
    obtain ⟨hdirectory, hset⟩ := directory_folder hnames hdirs hmem
    obtain ⟨p, hp, hprocessed⟩ := processed_folder hnames action hdirectory
    rw [hset]
    refine ⟨p, hp, hprocessed ▸ hnames.nodup_map.filter _, fun data => ?_⟩
    rw [hprocessed, mem_filter, beq_iff_eq]
    refine and_congr_right fun hdata => ?_
    obtain ⟨s, hs, rfl⟩ := mem_map.mp hdata
    exact prefix_iff_reached hnames hclash hs hdirectory

end

/-- The panel shows and processes the tree of the session names just when none of them is
hidden and no two folders of the same folder differ in case only. -/
theorem folders_right_iff (hnames : SessionNames sessions) :
    FoldersRight t sessions ↔
      (∀ s ∈ sessions, isHidden (textOf s) = false) ∧ ¬ CaseClash t sessions := by
  constructor
  · intro hright
    have hvisible : ∀ s ∈ sessions, isHidden (textOf s) = false := by
      intro s hs
      rw [Bool.eq_false_iff]
      intro hhidden
      have hcount := (hright.listed s hs).2
      have hmem := count_pos_iff.mp (hcount ▸ Nat.one_pos)
      cases shown_hidden hs hhidden _ _ hmem
    exact ⟨hvisible, fun hclash => not_right_of_clash ⟨hnames, hvisible⟩ hclash hright⟩
  · intro ⟨hvisible, hclash⟩
    exact right_of_no_clash ⟨hnames, hvisible⟩ hclash

end

def twoFolders : List (List Component) := [[wstr "A", wstr "x"], [wstr "b", wstr "y"]]

def upperAndLower : List (List Component) := [[wstr "A", wstr "x"], [wstr "a", wstr "y"]]

theorem sessionNames_pair {a b : List Component} (ha : a ≠ []) (hb : b ≠ []) (hne : a ≠ b)
    (hisname : ∀ c ∈ a ++ b, IsName c) (hfree : ∀ c ∈ a ++ b, slash ∉ c) : SessionNames [a, b] where
  nonempty := by simp [ha, hb]
  directory := by
    have hboth : Directory (a ++ b) := ⟨hisname, hfree⟩
    simp only [forall_mem_cons, not_mem_nil, false_imp_iff, implies_true, and_true]
    exact ⟨directory_of_subset hboth (subset_append_left a b),
      directory_of_subset hboth (subset_append_right a b)⟩
  nodup := by simp [hne]

theorem twoFolders_right : SessionNames twoFolders ∧
    FoldersRight asciiText twoFolders := by
  have hnames : SessionNames twoFolders :=
    sessionNames_pair (by decide) (by decide) (by decide) (by decide) (by decide)
  refine ⟨hnames, (folders_right_iff hnames).mpr ⟨by decide, ?_⟩⟩
  rintro ⟨dirs, c, c', rest, rest', hs, hs', hrest, hrest', hne, hsame⟩
  -- the two names have no common folder, so that the folders are the first components
  have hfirst : ∀ d tail, dirs ++ d :: tail ∈ twoFolders → tail ≠ [] →
      dirs = [] ∧ (d = wstr "A" ∨ d = wstr "b") := by
    intro d tail hmem htail
    rcases dirs with _ | ⟨top, _ | ⟨next, dirs⟩⟩ <;> simp_all [twoFolders]
    tauto
  obtain ⟨-, rfl | rfl⟩ := hfirst c rest hs hrest <;>
    obtain ⟨-, rfl | rfl⟩ := hfirst c' rest' hs' hrest'
  · exact hne rfl
  · exact absurd hsame (by decide)
  · exact absurd hsame (by decide)
  · exact hne rfl

/-- The second folder is not shown, so that its session cannot be reached. -/
theorem folder_of_other_case_hidden : SessionNames upperAndLower ∧
    ¬ FoldersRight asciiText upperAndLower := by
  have hnames : SessionNames upperAndLower :=
    sessionNames_pair (by decide) (by decide) (by decide) (by decide) (by decide)
  refine ⟨hnames, not_right_of_clash ⟨hnames, by decide⟩ ?_⟩
  exact ⟨[], wstr "A", wstr "a", [wstr "x"], [wstr "y"], by simp [upperAndLower],
    by simp [upperAndLower], by simp, by simp, by decide, by decide⟩

/-! ## Going up -/

theorem setDirectoryEx_up (h : Directory (dirs ++ [c])) :
    setDirectoryEx (textOf (dirs ++ [c])) parentDirectory = textOf dirs := by
  have hup : parentDirectory ∉ dirs ++ [c] := fun hmem => (h.names _ hmem).2.2 rfl
  have hclimb : climb [] ((dirs ++ [c]) ++ cut slash parentDirectory) = dirs := by
    rw [climb_of_not_mem hup, append_nil, reverse_append]
    exact (climb_up c dirs.reverse []).trans (reverse_reverse dirs)
  have hfilter : dirs.filter (· ≠ thisDirectory) = dirs :=
    filter_eq_self.mpr fun d hd => decide_eq_true (h.names d (mem_append_left _ hd)).2.1
  rw [setDirectoryEx, slash_textOf, (absolutePath_eq h (by decide) (by decide)).2, hclimb, hfilter,
    ← slash_textOf]
  rfl

/-- Going up leads back, from every folder that is entered where one can get. -/
theorem up_leads_back {sessions : List (List Component)} {folder folder' : UnicodeString}
    (hnames : SessionNames sessions) (h : LeadsTo t sessions [] folder)
    (henter : Enters t sessions folder folder') :
    setDirectoryEx folder' parentDirectory = folder := by
  obtain ⟨name, hmem, rfl⟩ := henter
  have hnames : VisibleNames sessions := by
    refine ⟨hnames, fun s hs => Bool.eq_false_iff.mpr fun hhidden => ?_⟩
    cases shown_hidden hs hhidden _ _ hmem
  obtain ⟨more, rfl, hmore, -⟩ := (reached_iff hnames directory_root _).mp h
  obtain ⟨hname, hset⟩ := directory_folder hnames hmore ((folder_mem_iff hnames hmore).mp hmem)
  rw [hset, setDirectoryEx_up hname]

/-- A session two folders down. -/
def nestedFolders : List (List Component) := [[wstr "A", wstr "b", wstr "x"], [wstr "c"]]

theorem up_leads_back_nested : setDirectoryEx (wstr "A/b") parentDirectory = wstr "A" := by
  have hnames : SessionNames nestedFolders :=
    sessionNames_pair (by decide) (by decide) (by decide) (by decide) (by decide)
  have hroot : LeadsTo asciiText nestedFolders [] (wstr "A") :=
    .tail .refl ⟨wstr "A", by decide, by decide⟩
  exact up_leads_back hnames hroot ⟨wstr "b", by decide, by decide⟩

/-! ## What is left of the sessions -/

/-- The sessions that an item of a folder stands for. -/
def PanelItem.covers (sessionsFolder : UnicodeString) : PanelItem → UnicodeString → Bool
  | session name, data => data == name
  | folder name, data =>
    let folder := unixIncludeTrailingBackslash (unixCombinePaths sessionsFolder name)
    data.take folder.length == folder
  | hint, _ => false

/-- Deleting a selection leaves the sessions that no selected item stands for, in their
order. -/
theorem processSessions_deleted (sessionsFolder : UnicodeString) (panelItems : List PanelItem)
    {sessions : List UnicodeString} (hnodup : sessions.Nodup)
    (hvisible : ∀ data ∈ sessions, isHidden data = false) :
    (processSessions .deleteSession sessionsFolder panelItems sessions).map Processing.sessions =
      some (sessions.filter fun data =>
        panelItems.all fun item => !item.covers sessionsFolder data) := by
  suffices hrun : ∀ p : Processing, p.sessions.Nodup → (∀ data ∈ p.sessions, isHidden data = false) →
      (panelItems.foldlM (processItem .deleteSession sessionsFolder) p).map Processing.sessions =
        some (p.sessions.filter fun data =>
          panelItems.all fun item => !item.covers sessionsFolder data) from
    hrun ⟨sessions, []⟩ hnodup hvisible
  induction panelItems with
  | nil => simp
  | cons item panelItems ih =>
    intro p hp hvisible
    obtain ⟨q, hq, hstep⟩ : ∃ q, processItem .deleteSession sessionsFolder p item = some q ∧
        q.sessions = p.sessions.filter fun data => !item.covers sessionsFolder data := by
      cases item with
      | session name => exact ⟨_, rfl, hp.erase_eq_filter name⟩
      | folder name =>
        exact ⟨_, processFolder_eq _ _ [] p.processed hp hvisible (Nat.le_refl _), rfl⟩
      | hint => exact ⟨p, rfl, by simp [PanelItem.covers]⟩
    rw [foldlM_cons, hq, Option.bind_eq_bind, Option.bind_some, ih q (hstep ▸ hp.filter _) ?_, hstep,
      filter_filter]
    · simp only [all_cons, Bool.and_comm]
    · rw [hstep]
      exact fun data hdata => hvisible data (mem_of_mem_filter hdata)

theorem processSessions_deleted_two :
    (processSessions .deleteSession [] [.folder (wstr "a"), .session (wstr "b")]
      [wstr "a/x", wstr "b", wstr "c", wstr "a/y"]).map Processing.sessions = some [wstr "c"] :=
  processSessions_deleted [] _ (by decide) (by decide)

end NetBox.Session
