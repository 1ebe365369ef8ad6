import NetBox.Scp.Commands
import NetBox.Lib.Run

/-! # Where the shell is when a command is sent

A change of directory may be deferred, and a reset of the session defers the
return to the last known directory. A deferred change is made up for by the next
change of directory. The other commands are sent without looking.
-/
namespace NetBox.Scp
open Base.Text Lib.Run List

inductive Action
  | changeDirectory (directory : UnicodeString)
  | cachedChangeDirectory (directory : UnicodeString)
  | readCurrentDirectory
  | homeDirectory
  /-- Any other command. -/
  | command (cmd : FSCommand) (params : Int) (args : List UnicodeString)
  /-- The session has to be opened again before the next command. -/
  | needsSessionReset

/-- One call, as long as the session is alive. An error is handed to the caller
and leaves the session as it is. -/
def step (set : CommandSet) (s : Session) (a : Action) : Option Session :=
  if s.active then
    match a with
    | .changeDirectory directory => some (changeDirectory set directory s).2
    | .cachedChangeDirectory directory => some (cachedChangeDirectory directory s)
    | .readCurrentDirectory => some (readCurrentDirectory set s).2
    | .homeDirectory => some (homeDirectory set s).2
    | .command cmd params args =>
      if flagSet (ecParams params) ecNoEnsureLocation then none
      else some (execCommand set cmd params args none false s).2
    | .needsSessionReset => some { s with needsSessionReset := true }
  else none

/-- A session that was just opened. -/
def Session.start (home : UnicodeString) (replies : List Reply) : Session where
  cachedDirectoryChange := []
  lastDirectory := []
  currentDirectory := []
  needsSessionReset := false
  active := true
  returnCode := 0
  output := []
  workingDirectory := home
  home := home
  replies := replies
  location := home
  sent := []

/-- Every line was sent in the directory that the client regarded as current,
apart from those that only make up for a deferred change. -/
def InPlace (s : Session) : Prop :=
  ∀ e ∈ s.sent, e.realises = false → e.workingDirectory = e.location

/-- No change is deferred, and a reset that is due has none to defer. -/
def Settled (s : Session) : Prop :=
  s.cachedDirectoryChange = [] ∧
    (s.needsSessionReset = true → s.lastDirectory = [] ∧ s.location = s.home)

/-- A command that is not a change of directory meets no deferred change, and a
reset knows the directory to return to when the session has left home. -/
def Undeferred (s : Session) : Action → Prop
  | .changeDirectory _ =>
    s.needsSessionReset = true → s.lastDirectory = [] → s.location = s.home
  | .readCurrentDirectory => s.cachedDirectoryChange = [] → Settled s
  | .homeDirectory | .command _ _ _ => Settled s
  | .cachedChangeDirectory _ | .needsSessionReset => True

instance (s : Session) : (a : Action) → Decidable (Undeferred s a)
  | .changeDirectory _ => inferInstanceAs (Decidable (_ = _ → _ = _ → _ = _))
  | .readCurrentDirectory => inferInstanceAs (Decidable (_ = _ → _ = _ ∧ (_ = _ → _ = _ ∧ _ = _)))
  | .homeDirectory | .command _ _ _ =>
    inferInstanceAs (Decidable (_ = _ ∧ (_ = _ → _ = _ ∧ _ = _)))
  | .cachedChangeDirectory _ | .needsSessionReset => .isTrue trivial

/-! ## The invariant -/

/-- The shell is where the client takes it to be, unless a change is deferred;
then the client takes it to be at the target. -/
structure Located (s : Session) : Prop where
  inPlace : InPlace s
  here : s.cachedDirectoryChange = [] → s.workingDirectory = s.location
  deferred : s.cachedDirectoryChange ≠ [] → s.location = s.cachedDirectoryChange
  known : s.lastDirectory = [] → s.cachedDirectoryChange = []

variable {set : CommandSet} {s t : Session}

/-- What the invariant reads of a session. -/
def Session.places (s : Session) :=
  (s.cachedDirectoryChange, s.lastDirectory, s.workingDirectory, s.location, s.sent)

theorem Located.congr (h : Located s) (hplaces : t.places = s.places) : Located t := by
  simp only [Session.places, Prod.mk.injEq] at hplaces
  obtain ⟨hcached, hlast, hworking, hlocation, hsent⟩ := hplaces
  constructor
  · unfold InPlace
    rw [hsent]
    exact h.inPlace
  · rw [hcached, hworking, hlocation]
    exact h.here
  · rw [hcached, hlocation]
    exact h.deferred
  · rw [hcached, hlast]
    exact h.known

theorem execCommand_places (set : CommandSet) (cmd : FSCommand) (params : Int)
    (args : List UnicodeString) (target : Option UnicodeString) (realises : Bool) (s : Session) :
    (execCommand set cmd params args target realises s).2.places =
      (s.resetIfNeeded.sendLine (set.fullCommand cmd args) target realises).places := by
  rw [execCommand_eq]
  dsimp only
  split
  · rfl
  · split
    · rfl
    · split <;> rfl

theorem located_start (home : UnicodeString) (replies : List Reply) :
    Located (Session.start home replies) :=
  ⟨fun _ he => (not_mem_nil he).elim, fun _ => rfl, fun h => absurd rfl h, fun _ => rfl⟩

/-- A reset leaves the shell at home, with the return to the last directory
deferred. -/
theorem Located.resetIfNeeded (h : Located s)
    (hknown : s.needsSessionReset = true → s.lastDirectory = [] → s.location = s.home) :
    Located s.resetIfNeeded := by
  unfold Session.resetIfNeeded Session.reconnectSession
  split
  · next hneeds =>
    dsimp only
    split
    · next hlast => exact ⟨h.inPlace, fun hc => absurd hc hlast, fun _ => rfl, fun hl => absurd hl hlast⟩
    · next hlast =>
      rw [not_not] at hlast
      have hcached := h.known hlast
      exact ⟨h.inPlace, fun _ => (hknown hneeds hlast).symm, fun hc => absurd hcached hc, h.known⟩
  · exact h

theorem Settled.resetIfNeeded (h : Settled s) : s.resetIfNeeded.cachedDirectoryChange = [] := by
  unfold Session.resetIfNeeded Session.reconnectSession
  split
  · next hneeds => simp [(h.2 hneeds).1, h.1]
  · exact h.1

/-- A line sent when nothing is deferred is in place. -/
theorem Located.sendLine (h : Located s) (hcached : s.cachedDirectoryChange = [])
    (line : UnicodeString) (target : Option UnicodeString) (realises : Bool) :
    Located (s.sendLine line target realises) := by
  refine ⟨?_, fun _ => ?_, fun hc => absurd hcached hc, h.known⟩
  · intro e he hreal
    rcases mem_append.mp he with he | he
    · exact h.inPlace e he hreal
    · rw [mem_singleton.mp he]
      exact h.here hcached
  · cases target with
    | none => exact h.here hcached
    | some directory => rfl

/-- A line that makes up for a deferred change puts the shell where the client
takes it to be. -/
theorem Located.realise (h : Located s) {directory line : UnicodeString} :
    Located ({ s with cachedDirectoryChange := [] }.sendLine line (some directory) true) := by
  refine ⟨?_, fun _ => rfl, fun hc => absurd rfl hc, fun _ => rfl⟩
  intro e he hreal
  rcases mem_append.mp he with he | he
  · exact h.inPlace e he hreal
  · rw [mem_singleton.mp he] at hreal
    cases hreal

theorem Located.execCommand (h : Located s) (hsettled : Settled s) (set : CommandSet)
    (cmd : FSCommand) (params : Int) (args : List UnicodeString) (target : Option UnicodeString) :
    Located (execCommand set cmd params args target false s).2 := by
  have hreset := h.resetIfNeeded fun hneeds _ => (hsettled.2 hneeds).2
  exact (hreset.sendLine hsettled.resetIfNeeded _ target false).congr (execCommand_places ..)

theorem cdTo_session (set : CommandSet) (directory : UnicodeString) (realises : Bool) (s : Session)
    (hcached : s.cachedDirectoryChange = []) (hneeds : s.needsSessionReset = false) :
    (cdTo set directory realises s).2.places =
      (s.sendLine (set.fullCommand .fsChangeDirectory [toDir directory]) (some directory)
        realises).places := by
  have hplaces := execCommand_places set .fsChangeDirectory 0 [toDir directory] (some directory)
    realises s
  rw [Session.resetIfNeeded_of_settled hneeds] at hplaces
  rw [← hplaces]
  have hfst : (execCommand set .fsChangeDirectory 0 [toDir directory] (some directory) realises
      s).2.cachedDirectoryChange = [] := (congrArg Prod.fst hplaces).trans hcached
  unfold cdTo Outcome.andThen
  split
  · next heq =>
    rw [heq] at hfst ⊢
    dsimp only [Session.places] at hfst ⊢
    rw [hfst]
  · next heq => rw [heq]

theorem cdTo_needs (set : CommandSet) (directory : UnicodeString) (realises : Bool) (s : Session) :
    (cdTo set directory realises s).2.needsSessionReset = false := by
  have hneeds := s.resetIfNeeded_needs
  unfold cdTo
  rw [execCommand_eq]
  dsimp only
  split
  · exact hneeds
  · split
    · exact hneeds
    · split <;> exact hneeds

theorem Located.changeDirectory (h : Located s)
    (hknown : s.needsSessionReset = true → s.lastDirectory = [] → s.location = s.home)
    (directory : UnicodeString) : Located (changeDirectory set directory s).2 := by
  have hneeds := s.resetIfNeeded_needs
  have hreset := h.resetIfNeeded hknown
  rw [changeDirectory_eq]
  dsimp only
  generalize s.resetIfNeeded = t at hneeds hreset
  split
  · next hcached =>
    exact (hreset.sendLine hcached _ _ false).congr (cdTo_session set directory false t hcached hneeds)
  · have hplaces := cdTo_session set t.cachedDirectoryChange true
      { t with cachedDirectoryChange := [] } rfl hneeds
    have hfirst := hreset.realise.congr hplaces
    have hcached : (cdTo set t.cachedDirectoryChange true
        { t with cachedDirectoryChange := [] }).2.cachedDirectoryChange = [] :=
      congrArg Prod.fst hplaces
    have hneeds' := cdTo_needs set t.cachedDirectoryChange true { t with cachedDirectoryChange := [] }
    cases hrun : cdTo set t.cachedDirectoryChange true { t with cachedDirectoryChange := [] } with
    | mk result u =>
      rw [hrun] at hfirst hcached hneeds'
      cases result with
      | error e => exact hfirst
      | ok before =>
        have hsecond := (hfirst.sendLine hcached _ _ false).congr
          (cdTo_session set directory false u hcached hneeds')
        unfold Outcome.andThen
        dsimp only
        split
        · next heq => rw [heq] at hsecond; exact hsecond
        · next heq => rw [heq] at hsecond; exact hsecond

theorem Located.cachedChangeDirectory (h : Located s) (directory : UnicodeString) :
    Located (cachedChangeDirectory directory s) := by
  have hne := unixExcludeTrailingBackslash_ne_nil directory
  unfold Scp.cachedChangeDirectory
  refine ⟨h.inPlace, fun hc => absurd hc hne, fun _ => rfl, fun hl => ?_⟩
  dsimp only at hl
  rw [if_pos hne] at hl
  exact absurd hl hne

theorem Located.setCurrentDirectory (h : Located s) {directory : UnicodeString}
    (hne : directory ≠ []) : Located (setCurrentDirectory directory s) := by
  refine ⟨h.inPlace, h.here, h.deferred, fun hl => ?_⟩
  unfold Scp.setCurrentDirectory at hl
  rw [if_pos hne] at hl
  exact absurd hl hne

theorem Located.readCurrentDirectory (h : Located s)
    (hok : s.cachedDirectoryChange = [] → Settled s) :
    Located (readCurrentDirectory set s).2 := by
  unfold Scp.readCurrentDirectory
  split
  · next hcached =>
    have hexec := h.execCommand (hok hcached) set .fsCurrentDirectory 0 [] none
    unfold Outcome.andThen
    split
    · next heq =>
      rw [heq] at hexec
      exact hexec.setCurrentDirectory (unixExcludeTrailingBackslash_ne_nil _)
    · next heq =>
      rw [heq] at hexec
      exact hexec
  · next hcached => exact h.setCurrentDirectory hcached

/-- One call keeps the invariant. -/
theorem Located.step {a : Action} (h : Located s) (hok : Undeferred s a)
    (hstep : step set s a = some t) : Located t := by
  unfold Scp.step at hstep
  split at hstep
  swap
  · cases hstep
  cases a with
  | changeDirectory directory =>
    cases hstep
    exact h.changeDirectory hok directory
  | cachedChangeDirectory directory =>
    cases hstep
    exact h.cachedChangeDirectory directory
  | readCurrentDirectory =>
    cases hstep
    exact h.readCurrentDirectory hok
  | homeDirectory =>
    cases hstep
    exact h.execCommand hok ..
  | command cmd params args =>
    dsimp only at hstep
    split at hstep
    · cases hstep
    · cases hstep
      exact h.execCommand hok ..
  | needsSessionReset =>
    cases hstep
    exact h.congr rfl

/-- Commands are sent where the client takes the shell to be, in every run in
which a command other than a change of directory meets no deferred change. -/
theorem commands_in_place {home : UnicodeString} {replies : List Reply}
    (h : Reaches (step set) Undeferred (Session.start home replies) s) : InPlace s := by
  have hlocated : Located s := by
    refine h.invariant (P := Located) (located_start home replies) ?_
    intro t a u ht hok hu
    exact ht.step hok hu
  exact hlocated.inPlace

/-- A session in which the change to `/a` is deferred. -/
def deferredSession : Session :=
  cachedChangeDirectory (wstr "/a") (Session.start (wstr "/home") [])

def plainShell : CommandSet := ⟨wstr "$?", []⟩

/-- A deferred change and a real one, a command, and a directory that is read and
returned to after a reset. -/
theorem commands_in_place_sample : ∃ s,
    s.sent.map (fun e => (e.workingDirectory, e.realises)) =
      [(wstr "/home", true), (wstr "/a", false), (wstr "/b", false), (wstr "/b", false),
        (wstr "/home", true), (wstr "/b", false)] ∧
    InPlace s := by
  let done : Reply := ⟨[], [lastLine ++ wstr ":0"]⟩
  let shown : Reply := ⟨[], [wstr "/b", lastLine ++ wstr ":0"]⟩
  have hrun : (runs (step plainShell) Undeferred
      (Session.start (wstr "/home") [done, done, done, shown, done, done])
      [.cachedChangeDirectory (wstr "/a"), .changeDirectory (wstr "/b"), .command .fsNull 0 [],
        .readCurrentDirectory, .needsSessionReset, .changeDirectory (wstr "/c")]).map
        (fun s => s.sent.map fun e => (e.workingDirectory, e.realises)) =
      some [(wstr "/home", true), (wstr "/a", false), (wstr "/b", false), (wstr "/b", false),
        (wstr "/home", true), (wstr "/b", false)] := by
    decide +kernel
  obtain ⟨s, hs, hsent⟩ := exists_reaches hrun
  exact ⟨s, hsent, commands_in_place hs⟩

/-- After a deferred change to `/a` the next command is run in `/home`. -/
theorem command_out_of_place : ∃ s,
    Reaches (step plainShell) (fun _ _ => True) (Session.start (wstr "/home") []) s ∧
    ¬InPlace s := by
  refine ⟨(execCommand plainShell .fsNull 0 [] none false deferredSession).2,
    .tail (.tail .refl (a := .cachedChangeDirectory (wstr "/a")) trivial rfl)
      (a := .command .fsNull 0 []) trivial rfl, ?_⟩
  intro h
  have hline := h ⟨plainShell.fullCommand .fsNull [], wstr "/home", wstr "/a", false⟩
    (List.mem_singleton.mpr rfl) rfl
  exact absurd hline (by decide)

end NetBox.Scp
