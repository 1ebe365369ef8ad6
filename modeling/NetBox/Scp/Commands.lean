import NetBox.Base.UnixPath
import NetBox.Base.Number
import NetBox.Command.ShellQuote

/-! # Shell commands of an SCP session

A command line is sent to the shell of the server together with an `echo` that
marks the end of the output and gives the return code. What comes back is read
line by line, and the flags of the caller say which answers raise an error.

What the shell answers is an input: one reply for each command line, with no
reply left when the connection is lost. The working directory of the shell is
the one of the last `cd`, and the home directory after a reconnect. The history
of the lines sent is kept with the directory the shell was in.
-/
namespace NetBox.Scp
open Base.Text Command

/-! ## Flags -/

def flagSet (params flag : Nat) : Bool := params &&& flag == flag

def flagMask (cond : Bool) (mask : Nat) : Nat := if cond then mask else 0

def coRaiseExcept : Nat := 1
def coExpectNoOutput : Nat := 2
def coWaitForLastLine : Nat := 4
def coOnlyReturnCode : Nat := 8
def coIgnoreWarnings : Nat := 16
def coReadProgress : Nat := 32
def coIgnoreStdErr : Nat := 64

def ecRaiseExcept : Nat := 0x01
def ecIgnoreWarnings : Nat := 0x02
def ecReadProgress : Nat := 0x04
def ecIgnoreStdErr : Nat := 0x08
def ecNoEnsureLocation : Nat := 0x10
def ecOnlyReturnCode : Nat := 0x20
def ecDefault : Nat := ecRaiseExcept

/-! ## The command set -/

inductive FSCommand
  | fsNull | fsVarValue | fsLastLine | fsFirstLine | fsCurrentDirectory | fsChangeDirectory
  | fsListDirectory | fsListCurrentDirectory | fsListFile | fsLookupUsersGroups | fsCopyToRemote
  | fsCopyToLocal | fsDeleteFile | fsRenameFile | fsCreateDirectory | fsChangeMode | fsChangeGroup
  | fsChangeOwner | fsHomeDirectory | fsUnset | fsUnalias | fsCreateLink | fsCopyFile | fsAnyCommand
  | fsLang
deriving DecidableEq

/-- What the table says of a command. A bound of -1 means none. -/
structure CommandType where
  minLines : Int
  maxLines : Int
  interactiveCommand : Bool
  command : UnicodeString

open FSCommand in
def defaultCommandSet : FSCommand → CommandType
  | fsNull => ⟨-1, -1, false, wstr ""⟩
  | fsVarValue => ⟨-1, -1, false, wstr "echo \"$%s\""⟩
  | fsLastLine => ⟨-1, -1, false, wstr "echo \"%s:%s\""⟩
  | fsFirstLine => ⟨-1, -1, false, wstr "echo \"%s\""⟩
  | fsCurrentDirectory => ⟨1, 1, false, wstr "pwd"⟩
  | fsChangeDirectory => ⟨0, 0, false, wstr "cd %s"⟩
  | fsListDirectory => ⟨-1, -1, false, wstr "%s %s \"%s\""⟩
  | fsListCurrentDirectory => ⟨-1, -1, false, wstr "%s %s"⟩
  | fsListFile => ⟨1, 1, false, wstr "%s -d %s \"%s\""⟩
  | fsLookupUsersGroups => ⟨0, 1, false, wstr "groups"⟩
  | fsCopyToRemote => ⟨-1, -1, true, wstr "scp -r %s -d -t \"%s\""⟩
  | fsCopyToLocal => ⟨-1, -1, true, wstr "scp -r %s -d -f \"%s\""⟩
  | fsDeleteFile => ⟨0, 0, false, wstr "rm -f -r \"%s\""⟩
  | fsRenameFile => ⟨0, 0, false, wstr "mv -f \"%s\" \"%s\""⟩
  | fsCreateDirectory => ⟨0, 0, false, wstr "mkdir \"%s\""⟩
  | fsChangeMode => ⟨0, 0, false, wstr "chmod %s %s \"%s\""⟩
  | fsChangeGroup => ⟨0, 0, false, wstr "chgrp %s \"%s\" \"%s\""⟩
  | fsChangeOwner => ⟨0, 0, false, wstr "chown %s \"%s\" \"%s\""⟩
  | fsHomeDirectory => ⟨0, 0, false, wstr "cd"⟩
  | fsUnset => ⟨0, 0, false, wstr "unset \"%s\""⟩
  | fsUnalias => ⟨0, 0, false, wstr "unalias \"%s\""⟩
  | fsCreateLink => ⟨0, 0, false, wstr "ln %s \"%s\" \"%s\""⟩
  | fsCopyFile => ⟨0, 0, false, wstr "cp -p -r -f %s \"%s\" \"%s\""⟩
  | fsAnyCommand => ⟨0, -1, false, wstr "%s"⟩
  | fsLang => ⟨0, 1, false, wstr "printenv LANG"⟩

/-- Each `%s` is replaced by the next argument. -/
def sprintf : UnicodeString → List UnicodeString → UnicodeString
  | [], _ => []
  | 37 :: 115 :: rest, arg :: args => arg ++ sprintf rest args
  | ch :: rest, args => ch :: sprintf rest args

def lastLine : UnicodeString := wstr "NetBox: this is end-of-file"
def firstLine : UnicodeString := wstr "NetBox: this is begin-of-file"

/-- What the session settings say about the shell. -/
structure CommandSet where
  /-- The variable with the return code, with its dollar, or `0`. -/
  returnVar : UnicodeString
  shell : UnicodeString

def escapeShellSingleQuotes (s : UnicodeString) : UnicodeString :=
  s.flatMap fun ch => if ch == 39 then wstr "'\"'\"'" else [ch]

def CommandSet.command (cmd : FSCommand) (args : List UnicodeString) : UnicodeString :=
  sprintf (defaultCommandSet cmd).command args

def CommandSet.fullCommand (set : CommandSet) (cmd : FSCommand) (args : List UnicodeString) :
    UnicodeString :=
  let separator := wstr " ; "
  let line := command cmd args
  let lastLineCmd := sprintf (defaultCommandSet .fsLastLine).command [lastLine, set.returnVar]
  let firstLineCmd :=
    if (defaultCommandSet cmd).interactiveCommand then
      sprintf (defaultCommandSet .fsFirstLine).command [firstLine] ++ separator
    else []
  let result :=
    if line ≠ [] then firstLineCmd ++ line ++ separator ++ lastLineCmd
    else firstLineCmd ++ lastLineCmd
  if set.shell ≠ [] ∧ (0 < pos (wstr " -i") set.shell ∨ 0 < pos (wstr " -l") set.shell ∨
      0 < pos (wstr " -login") set.shell) then
    let p := pos (wstr " ") set.shell
    let shellExe := if 0 < p then set.shell.take (p - 1) else set.shell
    if shellExe ≠ [] then
      shellExe ++ wstr " -c '" ++ escapeShellSingleQuotes result ++ wstr "'"
    else result
  else result

/-! ## The return code -/

/-- The line without the mark of the end, and the number behind the mark. -/
def removeLastLine (line : UnicodeString) (code : Int) : Bool × UnicodeString × Int :=
  match pos lastLine line with
  | 0 => (false, line, code)
  | p + 1 =>
    let (isLastLine, value) := tryStrToInt64 (line.drop (p + lastLine.length + 1))
    (isLastLine, if isLastLine then line.take p else line, value)

/-- The lines up to the one with the mark, and the number on that one. There is
none when the connection is lost before. -/
def readLines : List UnicodeString → List UnicodeString → Int → Option (List UnicodeString × Int)
  | [], _, _ => none
  | line :: lines, output, code =>
    let (isLast, line, code) := removeLastLine line code
    let output := if !isLast || line ≠ [] then output ++ [line] else output
    if isLast then some (output, code) else readLines lines output code

/-! ## The session -/

/-- What the shell answers to a command line. -/
structure Reply where
  stdError : UnicodeString
  lines : List UnicodeString

/-- A command line in the history, with the working directory of the shell and
the directory the client regards as current when it was sent. -/
structure Sent where
  line : UnicodeString
  workingDirectory : UnicodeString
  location : UnicodeString
  /-- The line only makes up for a deferred change of directory. -/
  realises : Bool

structure Session where
  cachedDirectoryChange : UnicodeString
  lastDirectory : UnicodeString
  currentDirectory : UnicodeString
  needsSessionReset : Bool
  active : Bool
  returnCode : Int
  output : List UnicodeString
  workingDirectory : UnicodeString
  home : UnicodeString
  replies : List Reply
  location : UnicodeString
  sent : List Sent

inductive ScpError
  | commandFailedCodeOnly (code : Int)
  | commandFailed (command : UnicodeString) (code : Int) (message : UnicodeString)
  | invalidOutput (command : UnicodeString) (output : List UnicodeString)
  | closed

/-- What a call returns or raises, and the session it leaves behind. -/
abbrev Outcome (α : Type) := Except ScpError α × Session

def Outcome.andThen {α β : Type} (o : Outcome α) (f : α → Session → Outcome β) : Outcome β :=
  match o with
  | (.ok a, s) => f a s
  | (.error e, s) => (.error e, s)

/-- `try` and `catch`. -/
def Outcome.recover {α : Type} (o : Outcome α) (handler : ScpError → Session → Outcome α) :
    Outcome α :=
  match o with
  | (.ok a, s) => (.ok a, s)
  | (.error e, s) => handler e s

/-- What came back of a command that raised no error. -/
structure Result where
  cmd : FSCommand
  /-- The number that the shell has sent. -/
  code : Int
  lines : Nat

/-- The shell starts in the home directory. A directory that is known is gone
back to with the next change. -/
def Session.reconnectSession (s : Session) : Session :=
  let s := { s with workingDirectory := s.home, needsSessionReset := false }
  if s.lastDirectory ≠ [] then
    { s with cachedDirectoryChange := s.lastDirectory, location := s.lastDirectory }
  else s

def Session.resetIfNeeded (s : Session) : Session :=
  if s.needsSessionReset then s.reconnectSession else s

theorem Session.resetIfNeeded_replies (s : Session) : s.resetIfNeeded.replies = s.replies := by
  unfold resetIfNeeded reconnectSession
  split
  · dsimp only
    split <;> rfl
  · rfl

/-- A line that goes out, with the directory it changes to. -/
def Session.sendLine (line : UnicodeString) (target : Option UnicodeString) (realises : Bool)
    (s : Session) : Session :=
  { s with
    returnCode := 0
    output := []
    workingDirectory := target.getD s.workingDirectory
    location := target.getD s.location
    sent := s.sent ++ [⟨line, s.workingDirectory, s.location, realises⟩] }

/-- The condition on `NoEnsureLocation` governs only the declaration that
follows it, so the flag makes no difference. -/
def sendCommand (line : UnicodeString) (_noEnsureLocation : Bool) (target : Option UnicodeString)
    (realises : Bool) (s : Session) : Session :=
  s.resetIfNeeded.sendLine line target realises

/-- The lines of a reply before the mark of the end, and the return code. -/
def Reply.read (reply : Reply) : Option (List UnicodeString × Int) := readLines reply.lines [] 0

/-- The next reply, up to the mark of its end. -/
def receiveOutput (s : Session) : Outcome (UnicodeString × Int) :=
  match s.replies with
  | [] => (.error .closed, { s with active := false })
  | reply :: replies =>
    match reply.read with
    | none => (.error .closed, { s with active := false, replies := [] })
    | some (output, code) =>
      (.ok (reply.stdError, code), { s with replies, output, returnCode := toInt32 code })

def isEol (ch : WChar) : Bool := ch == 10 || ch == 13

/-- The error of a command, if its output and return code are one. -/
def outputError (params : Nat) (command stdError : UnicodeString) (output : List UnicodeString)
    (returnCode : Int) : Option ScpError :=
  if flagSet params coRaiseExcept then
    let text := output.flatMap fun line => line ++ [13, 10]
    let message :=
      if flagSet params coExpectNoOutput && !output.isEmpty then
        stdError ++ (if stdError ≠ [] ∧ text ≠ [] then [10] else []) ++ text
      else stdError
    let message := (message.reverse.dropWhile isEol).reverse
    let wrongReturnCode := decide (returnCode > 1) ||
      (returnCode == 1 && !flagSet params coIgnoreWarnings)
    if flagSet params coOnlyReturnCode then
      if wrongReturnCode then some (.commandFailedCodeOnly returnCode) else none
    else
      let isStdErrOnlyError := !flagSet params coIgnoreWarnings && !flagSet params coIgnoreStdErr
      let wrongOutput := !message.isEmpty && (output.isEmpty || isStdErrOnlyError)
      if wrongOutput || wrongReturnCode then
        if message.isEmpty then some (.commandFailedCodeOnly returnCode)
        else some (.commandFailed command returnCode message)
      else none
  else none

def readCommandOutput (params : Nat) (command : UnicodeString) (s : Session) : Outcome Int :=
  (receiveOutput s).andThen fun (stdError, code) s =>
    match outputError params command stdError s.output s.returnCode with
    | some e => (.error e, s)
    | none => (.ok code, s)

/-- The number of lines is not one the table allows, as `ExecCommand` tests it. -/
def wrongLines (cmd : FSCommand) (lines : Nat) : Bool :=
  let minL := (defaultCommandSet cmd).minLines
  let maxL := (defaultCommandSet cmd).maxLines
  (decide (minL ≥ 0) && decide (minL > lines)) || (decide (maxL ≥ 0) && decide (maxL > lines))

def coParams (params : Nat) : Nat :=
  coWaitForLastLine ||| flagMask (flagSet params ecRaiseExcept) coRaiseExcept |||
    flagMask (flagSet params ecOnlyReturnCode) coOnlyReturnCode |||
    flagMask (flagSet params ecIgnoreWarnings) coIgnoreWarnings |||
    flagMask (flagSet params ecReadProgress) coReadProgress |||
    flagMask (flagSet params ecIgnoreStdErr) coIgnoreStdErr

/-- The flags in force: a negative value asks for the default. -/
def ecParams (params : Int) : Nat := if params < 0 then ecDefault else params.toNat

def execCommand (set : CommandSet) (cmd : FSCommand) (params : Int) (args : List UnicodeString)
    (target : Option UnicodeString) (realises : Bool) (s : Session) : Outcome Result :=
  let params := ecParams params
  let fullCommand := set.fullCommand cmd args
  let s := sendCommand fullCommand (flagSet params ecNoEnsureLocation) target realises s
  (readCommandOutput (coParams params) (CommandSet.command cmd args) s).andThen fun code s =>
    if params &&& ecRaiseExcept ≠ 0 ∧ wrongLines cmd s.output.length = true then
      (.error (.invalidOutput fullCommand s.output), s)
    else (.ok ⟨cmd, code, s.output.length⟩, s)

/-- The error that `ExecCommand` raises on this output, if any. -/
def commandError (set : CommandSet) (cmd : FSCommand) (params : Int) (args : List UnicodeString)
    (stdError : UnicodeString) (output : List UnicodeString) (code : Int) : Option ScpError :=
  match outputError (coParams (ecParams params)) (CommandSet.command cmd args) stdError output
      (toInt32 code) with
  | some e => some e
  | none =>
    if ecParams params &&& ecRaiseExcept ≠ 0 ∧ wrongLines cmd output.length = true then
      some (.invalidOutput (set.fullCommand cmd args) output)
    else none

/-- What a command does: it takes the next reply, and raises an error when
there is none or when the flags say so. -/
theorem execCommand_eq (set : CommandSet) (cmd : FSCommand) (params : Int)
    (args : List UnicodeString) (target : Option UnicodeString) (realises : Bool) (s : Session) :
    execCommand set cmd params args target realises s =
      let t := s.resetIfNeeded.sendLine (set.fullCommand cmd args) target realises
      match s.replies with
      | [] => (.error .closed, { t with active := false })
      | reply :: replies =>
        match reply.read with
        | none => (.error .closed, { t with active := false, replies := [] })
        | some (output, code) =>
          let u := { t with replies, output, returnCode := toInt32 code }
          match commandError set cmd params args reply.stdError output code with
          | some e => (.error e, u)
          | none => (.ok ⟨cmd, code, output.length⟩, u) := by
  have hreplies : (s.resetIfNeeded.sendLine (set.fullCommand cmd args) target realises).replies =
      s.replies := s.resetIfNeeded_replies
  unfold execCommand sendCommand readCommandOutput receiveOutput commandError
  dsimp only
  rw [hreplies]
  cases s.replies with
  | nil => rfl
  | cons reply replies =>
    dsimp only
    cases reply.read with
    | none => rfl
    | some read =>
      obtain ⟨output, code⟩ := read
      dsimp only [Outcome.andThen]
      cases outputError (coParams (ecParams params)) (CommandSet.command cmd args) reply.stdError
        output (toInt32 code) with
      | some e => rfl
      | none =>
        dsimp only
        split <;> rfl

/-! ## The operations -/

/-- Goes to the directory of a deferred change. When that fails and the session
is still alive, the change is deferred again. -/
def ensureLocation (changeDirectory : UnicodeString → Session → Outcome (List Result))
    (s : Session) : Outcome (List Result) :=
  let directory := s.cachedDirectoryChange
  if directory ≠ [] then
    (changeDirectory directory { s with cachedDirectoryChange := [] }).recover fun e s =>
      (.error e, if s.active then { s with cachedDirectoryChange := directory } else s)
  else (.ok [], s)

/-- The argument of `cd`. A directory that starts with a tilde is not quoted. -/
def toDir (directory : UnicodeString) : UnicodeString :=
  if directory ≠ [] ∧ (directory.head? ≠ some 126 ∨ directory.take 2 = wstr "~ ") then
    shellQuoteStr directory
  else delimitStr directory

/-- `ChangeDirectory`, which comes back to itself for a deferred change; `depth`
bounds how often. The flags it works out are passed on as one more argument of
the command line, and not as flags. -/
def changeDirectoryAt (set : CommandSet) :
    Nat → Bool → UnicodeString → Session → Outcome (List Result)
  | 0, _, _, s => (.error .closed, s)
  | depth + 1, realises, aDirectory, s =>
    let located : Outcome (UnicodeString × List Result) :=
      match ensureLocation (changeDirectoryAt set depth true) s.resetIfNeeded with
      | (.ok before, s) => (.ok (aDirectory, before), s)
      | (.error e, s) =>
        if s.active ∧ s.cachedDirectoryChange ≠ [] then
          let cached := absolutePath s.currentDirectory s.cachedDirectoryChange
          (.ok (absolutePath cached aDirectory, []), s)
        else (.error e, s)
    located.andThen fun (directory, before) s =>
      (execCommand set .fsChangeDirectory 0 [toDir directory] (some directory) realises s).andThen
        fun result s => (.ok (before ++ [result]), { s with cachedDirectoryChange := [] })

/-- A deferred change is met once: the call it makes finds none. -/
def changeDirectory (set : CommandSet) (directory : UnicodeString) (s : Session) :
    Outcome (List Result) :=
  changeDirectoryAt set 2 false directory s

/-- Without flags, no output is an error. -/
theorem commandError_quiet (set : CommandSet) (cmd : FSCommand) (args : List UnicodeString)
    (stdError : UnicodeString) (output : List UnicodeString) (code : Int) :
    commandError set cmd 0 args stdError output code = none := by
  have hflag : flagSet (coParams (ecParams 0)) coRaiseExcept = false := rfl
  have hparams : ecParams 0 &&& ecRaiseExcept = 0 := rfl
  unfold commandError outputError
  simp [hflag, hparams]

/-- Without flags, a command fails only when the connection is lost. -/
theorem execCommand_quiet_error {set : CommandSet} {cmd : FSCommand} {args : List UnicodeString}
    {target : Option UnicodeString} {realises : Bool} {s t : Session} {e : ScpError}
    (h : execCommand set cmd 0 args target realises s = (.error e, t)) : t.active = false := by
  rw [execCommand_eq] at h
  dsimp only at h
  split at h
  · cases h; rfl
  · split at h
    · cases h; rfl
    · rw [commandError_quiet] at h
      cases h

/-- The `cd` itself. -/
def cdTo (set : CommandSet) (directory : UnicodeString) (realises : Bool) (s : Session) :
    Outcome (List Result) :=
  (execCommand set .fsChangeDirectory 0 [toDir directory] (some directory) realises s).andThen
    fun result s => (.ok [result], { s with cachedDirectoryChange := [] })

theorem cdTo_error {set : CommandSet} {directory : UnicodeString} {realises : Bool}
    {s t : Session} {e : ScpError} (h : cdTo set directory realises s = (.error e, t)) :
    t.active = false := by
  unfold cdTo at h
  cases hexec : execCommand set .fsChangeDirectory 0 [toDir directory] (some directory) realises s
    with
  | mk result u =>
    rw [hexec] at h
    cases result with
    | ok r => cases h
    | error e' =>
      cases h
      exact execCommand_quiet_error hexec

theorem Session.resetIfNeeded_needs (s : Session) :
    s.resetIfNeeded.needsSessionReset = false := by
  unfold resetIfNeeded reconnectSession
  split
  · dsimp only
    split <;> rfl
  · next h => simpa using h

theorem Session.resetIfNeeded_of_settled {s : Session} (h : s.needsSessionReset = false) :
    s.resetIfNeeded = s := by
  simp [resetIfNeeded, h]

theorem changeDirectoryAt_settled (set : CommandSet) (depth : Nat) (realises : Bool)
    (directory : UnicodeString) {s : Session} (hreset : s.needsSessionReset = false)
    (hcached : s.cachedDirectoryChange = []) :
    changeDirectoryAt set (depth + 1) realises directory s = cdTo set directory realises s := by
  rw [changeDirectoryAt, Session.resetIfNeeded_of_settled hreset]
  unfold ensureLocation cdTo
  simp [hcached, Outcome.andThen]

/-- What a change of directory does: a deferred change is made up for first,
and when that fails nothing follows. -/
theorem changeDirectory_eq (set : CommandSet) (directory : UnicodeString) (s : Session) :
    changeDirectory set directory s =
      let t := s.resetIfNeeded
      if t.cachedDirectoryChange = [] then cdTo set directory false t
      else
        (cdTo set t.cachedDirectoryChange true { t with cachedDirectoryChange := [] }).andThen
          fun before s => (cdTo set directory false s).andThen
            fun result s => (.ok (before ++ result), s) := by
  have hreset := s.resetIfNeeded_needs
  unfold changeDirectory
  rw [changeDirectoryAt]
  generalize s.resetIfNeeded = t at hreset
  by_cases hcached : t.cachedDirectoryChange = []
  · simp [ensureLocation, hcached, Outcome.andThen, cdTo]
  · simp only [ensureLocation, ne_eq, hcached, not_false_eq_true, if_true, if_false]
    have hinner := changeDirectoryAt_settled set 0 true t.cachedDirectoryChange
      (s := { t with cachedDirectoryChange := [] }) hreset rfl
    rw [hinner]
    cases hfirst : cdTo set t.cachedDirectoryChange true { t with cachedDirectoryChange := [] } with
    | mk result u =>
      cases result with
      | error e =>
        have hactive := cdTo_error hfirst
        simp [Outcome.recover, Outcome.andThen, hactive]
      | ok before =>
        simp only [Outcome.recover, Outcome.andThen, cdTo]
        split <;> rfl

def cachedChangeDirectory (directory : UnicodeString) (s : Session) : Session :=
  let cached := unixExcludeTrailingBackslash directory
  { s with
    cachedDirectoryChange := cached
    lastDirectory := if cached ≠ [] then cached else s.lastDirectory
    location := cached }

def setCurrentDirectory (directory : UnicodeString) (s : Session) : Session :=
  { s with
    currentDirectory := directory
    lastDirectory := if directory ≠ [] then directory else s.lastDirectory }

def readCurrentDirectory (set : CommandSet) (s : Session) : Outcome Unit :=
  if s.cachedDirectoryChange = [] then
    (execCommand set .fsCurrentDirectory 0 [] none false s).andThen fun _ s =>
      (.ok (), setCurrentDirectory (unixExcludeTrailingBackslash (s.output.headD [])) s)
  else (.ok (), setCurrentDirectory s.cachedDirectoryChange s)

def homeDirectory (set : CommandSet) (s : Session) : Outcome Result :=
  execCommand set .fsHomeDirectory 0 [] (some s.home) false s

end NetBox.Scp
