import NetBox.Scp.Commands
import Mathlib.Data.List.Basic

/-! # Which failures of a shell command are reported

The operations of the file system that are done by shell commands, and when they
return although the shell has reported a failure. Nearly all of them hand no flag
to `ExecCommand`, so that it reads the answer and raises no error on it.
-/
namespace NetBox.Scp
open Base.Text Command List

/-! ## The operations -/

def Outcome.append (o : Outcome (List Result)) (next : Session → Outcome (List Result)) :
    Outcome (List Result) :=
  o.andThen fun before s => (next s).andThen fun after s => (.ok (before ++ after), s)

def exec (set : CommandSet) (cmd : FSCommand) (params : Int) (args : List UnicodeString)
    (s : Session) : Outcome (List Result) :=
  (execCommand set cmd params args none false s).andThen fun result s => (.ok [result], s)

/-- The parameters of the deletion are handed on as flags of the command. -/
def deleteFile (set : CommandSet) (fileName : UnicodeString) (params : Int) (s : Session) :
    Outcome (List Result) :=
  exec set .fsDeleteFile params [delimitStr fileName] s

def renameFile (set : CommandSet) (fileName newName : UnicodeString) (s : Session) :
    Outcome (List Result) :=
  exec set .fsRenameFile 0 [delimitStr fileName, delimitStr newName] s

/-- When the copy with `-T` fails, it is tried without. -/
def copyFile (set : CommandSet) (fileName newName : UnicodeString) (s : Session) :
    Outcome (List Result) :=
  (exec set .fsCopyFile 0 [wstr "-T", delimitStr fileName, delimitStr newName] s).recover
    fun e s =>
      if s.active then exec set .fsCopyFile 0 [[], delimitStr fileName, delimitStr newName] s
      else (.error e, s)

def createDirectory (set : CommandSet) (dirName : UnicodeString) (s : Session) :
    Outcome (List Result) :=
  exec set .fsCreateDirectory 0 [delimitStr dirName] s

def createLink (set : CommandSet) (fileName pointTo : UnicodeString) (symbolic : Bool)
    (s : Session) : Outcome (List Result) :=
  exec set .fsCreateLink 0
    [if symbolic then wstr "-s" else [], delimitStr pointTo, delimitStr fileName] s

/-- An owner or a group. -/
structure Token where
  id : Option Int
  name : Option UnicodeString

def Token.str (token : Token) : UnicodeString :=
  match token.id, token.name with
  | some id, _ => wstr (toString id)
  | none, some name => name
  | none, none => []

def changeFileToken (set : CommandSet) (delimitedName : UnicodeString) (token : Token)
    (cmd : FSCommand) (recursiveStr : UnicodeString) (s : Session) : Outcome (List Result) :=
  if token.str ≠ [] then exec set cmd 0 [recursiveStr, token.str, delimitedName] s
  else (.ok [], s)

structure Rights where
  numberSet : Nat
  numberUnset : Nat

/-- For each of user, group and others, the execute bit is added when the read or
the write bit is set. -/
def Rights.addExecute (rights : Rights) : Rights :=
  [(0o400, 0o200, 0o100), (0o040, 0o020, 0o010), (0o004, 0o002, 0o001)].foldl
    (fun rights (read, write, exec) =>
      if rights.numberSet &&& read ≠ 0 ∨ rights.numberSet &&& write ≠ 0 then
        ⟨rights.numberSet ||| exec, rights.numberUnset &&& (0xFFFF ^^^ exec)⟩
      else rights) rights

/-- The properties to change; those that are not valid are `none`. -/
structure Properties where
  group : Option Token
  owner : Option Token
  rights : Option Rights
  recursive : Bool
  addXToDirectories : Bool

/-- `isDirectory` is `none` when the file is not known. The text of the mode is
given by `chmodStr`. -/
def changeFileProperties (set : CommandSet) (chmodStr : Rights → Option Bool → UnicodeString)
    (fileName : UnicodeString) (isDirectory : Option Bool) (properties : Properties)
    (s : Session) : Outcome (List Result) :=
  let isDir := isDirectory == some true
  let recursive := properties.recursive && isDir
  let recursiveStr := if recursive then wstr "-R" else []
  let delimitedName := delimitStr fileName
  let changeGroup (s : Session) : Outcome (List Result) :=
    match properties.group with
    | some group => changeFileToken set delimitedName group .fsChangeGroup recursiveStr s
    | none => (.ok [], s)
  let changeOwner (s : Session) : Outcome (List Result) :=
    match properties.owner with
    | some owner => changeFileToken set delimitedName owner .fsChangeOwner recursiveStr s
    | none => (.ok [], s)
  let changeMode (s : Session) : Outcome (List Result) :=
    match properties.rights with
    | none => (.ok [], s)
    | some rights =>
      let rights :=
        if !recursive && isDir && properties.addXToDirectories then rights.addExecute else rights
      let first (s : Session) : Outcome (List Result) :=
        if rights.numberSet ||| rights.numberUnset ≠ 0 then
          exec set .fsChangeMode 0 [recursiveStr, chmodStr rights isDirectory, delimitedName] s
        else (.ok [], s)
      (first s).append fun s =>
        if recursive && isDir && properties.addXToDirectories then
          exec set .fsChangeMode 0 [[], chmodStr rights.addExecute isDirectory, delimitedName] s
        else (.ok [], s)
  ((changeGroup s).append changeOwner).append changeMode

/-- A call of one of the operations. -/
inductive Operation
  | changeDirectory (directory : UnicodeString)
  | deleteFile (fileName : UnicodeString) (params : Int)
  | renameFile (fileName newName : UnicodeString)
  | copyFile (fileName newName : UnicodeString)
  | createDirectory (dirName : UnicodeString)
  | createLink (fileName pointTo : UnicodeString) (symbolic : Bool)
  | changeFileProperties (fileName : UnicodeString) (isDirectory : Option Bool)
      (properties : Properties)

def Operation.run (set : CommandSet) (chmodStr : Rights → Option Bool → UnicodeString) :
    Operation → Session → Outcome (List Result)
  | .changeDirectory directory => Scp.changeDirectory set directory
  | .deleteFile fileName params => Scp.deleteFile set fileName params
  | .renameFile fileName newName => Scp.renameFile set fileName newName
  | .copyFile fileName newName => Scp.copyFile set fileName newName
  | .createDirectory dirName => Scp.createDirectory set dirName
  | .createLink fileName pointTo symbolic => Scp.createLink set fileName pointTo symbolic
  | .changeFileProperties fileName isDirectory properties =>
    Scp.changeFileProperties set chmodStr fileName isDirectory properties

/-! ## What should be reported -/

/-- The return code is 0 and the number of lines is one the table allows. -/
def Result.Succeeded (r : Result) : Prop :=
  r.code = 0 ∧
    ((defaultCommandSet r.cmd).minLines = -1 ∨ (defaultCommandSet r.cmd).minLines ≤ r.lines) ∧
    ((defaultCommandSet r.cmd).maxLines = -1 ∨ r.lines ≤ (defaultCommandSet r.cmd).maxLines)

/-- The operation returns only when the commands it relies on have succeeded. -/
def Reported (set : CommandSet) (chmodStr : Rights → Option Bool → UnicodeString) (op : Operation)
    (s : Session) : Prop :=
  ∀ results t, op.run set chmodStr s = (.ok results, t) → ∀ r ∈ results, r.Succeeded

/-- A command with its flags. -/
structure Request where
  cmd : FSCommand
  params : Int
  args : List UnicodeString

/-- The commands of an operation, in order. Only the deletion hands flags on. -/
def Operation.requests (chmodStr : Rights → Option Bool → UnicodeString) (s : Session) :
    Operation → List Request
  | .changeDirectory directory =>
    let cached := s.resetIfNeeded.cachedDirectoryChange
    (if cached = [] then [] else [⟨.fsChangeDirectory, 0, [toDir cached]⟩]) ++
      [⟨.fsChangeDirectory, 0, [toDir directory]⟩]
  | .deleteFile fileName params => [⟨.fsDeleteFile, params, [delimitStr fileName]⟩]
  | .renameFile fileName newName =>
    [⟨.fsRenameFile, 0, [delimitStr fileName, delimitStr newName]⟩]
  | .copyFile fileName newName =>
    [⟨.fsCopyFile, 0, [wstr "-T", delimitStr fileName, delimitStr newName]⟩]
  | .createDirectory dirName => [⟨.fsCreateDirectory, 0, [delimitStr dirName]⟩]
  | .createLink fileName pointTo symbolic =>
    [⟨.fsCreateLink, 0,
      [if symbolic then wstr "-s" else [], delimitStr pointTo, delimitStr fileName]⟩]
  | .changeFileProperties fileName isDirectory properties =>
    let isDir := isDirectory == some true
    let recursive := properties.recursive && isDir
    let recursiveStr := if recursive then wstr "-R" else []
    let name := delimitStr fileName
    let token (cmd : FSCommand) (token : Option Token) : List Request :=
      match token with
      | some token => if token.str ≠ [] then [⟨cmd, 0, [recursiveStr, token.str, name]⟩] else []
      | none => []
    let mode : List Request :=
      match properties.rights with
      | none => []
      | some rights =>
        let rights :=
          if !recursive && isDir && properties.addXToDirectories then rights.addExecute else rights
        (if rights.numberSet ||| rights.numberUnset ≠ 0 then
          [⟨.fsChangeMode, 0, [recursiveStr, chmodStr rights isDirectory, name]⟩] else []) ++
        (if recursive && isDir && properties.addXToDirectories then
          [⟨.fsChangeMode, 0, [[], chmodStr rights.addExecute isDirectory, name]⟩] else [])
    token .fsChangeGroup properties.group ++ token .fsChangeOwner properties.owner ++ mode

/-- Not all commands are answered to the end. -/
def Lost (requests : List Request) (replies : List Reply) : Prop :=
  replies.length < requests.length ∨ ∃ reply ∈ replies.take requests.length, reply.read = none

/-- The command was sent with the flag to raise errors, and the answer is one. -/
def Raises (set : CommandSet) (q : Request) (reply : Reply) : Prop :=
  ecParams q.params &&& ecRaiseExcept ≠ 0 ∧ ∃ output code, reply.read = some (output, code) ∧
    (commandError set q.cmd q.params q.args reply.stdError output code).isSome

/-- The command has succeeded. -/
def Succeeds (q : Request) (reply : Reply) : Prop :=
  ∃ output code, reply.read = some (output, code) ∧
    Result.Succeeded ⟨q.cmd, code, output.length⟩

/-- The connection is lost before all commands of the operation are answered, or
one was sent with the flag to raise errors and its answer shows an error, or all
have succeeded. -/
def Unmissed (set : CommandSet) (requests : List Request) (replies : List Reply) : Prop :=
  Lost requests replies ∨ (∃ p ∈ requests.zip replies, Raises set p.1 p.2) ∨
    ∀ p ∈ requests.zip replies, Succeeds p.1 p.2

/-! ## What the commands return -/

variable {set : CommandSet} {chmodStr : Rights → Option Bool → UnicodeString}
  {requests later : List Request} {replies : List Reply} {o : Outcome (List Result)}

/-- The results of commands that are run one after the other, `none` when one of
them raises an error. -/
def answers (set : CommandSet) : List Request → List Reply → Option (List Result)
  | [], _ => some []
  | _ :: _, [] => none
  | q :: requests, reply :: replies =>
    match reply.read with
    | none => none
    | some (output, code) =>
      match commandError set q.cmd q.params q.args reply.stdError output code with
      | some _ => none
      | none => (answers set requests replies).map (⟨q.cmd, code, output.length⟩ :: ·)

theorem answers_append : answers set (requests ++ later) replies =
    (answers set requests replies).bind fun results =>
      (answers set later (replies.drop requests.length)).map (results ++ ·) := by
  induction requests generalizing replies with
  | nil => simp [answers]
  | cons q requests ih =>
    cases replies with
    | nil => simp [answers]
    | cons reply replies =>
      simp only [cons_append, answers, length_cons, drop_succ_cons, ih]
      split
      · rfl
      · split
        · rfl
        · cases answers set requests replies <;> simp [Function.comp_def]

/-- A part of an operation that runs these commands and no others. -/
structure Follows (set : CommandSet) (o : Outcome (List Result)) (requests : List Request)
    (replies : List Reply) : Prop where
  result : o.1.toOption = answers set requests replies
  rest : o.1.toOption.isSome = true → o.2.replies = replies.drop requests.length

theorem follows_nil (s : Session) : Follows set (.ok [], s) [] s.replies :=
  ⟨rfl, fun _ => rfl⟩

theorem Follows.append {next : Session → Outcome (List Result)} (h : Follows set o requests replies)
    (hnext : ∀ s, Follows set (next s) later s.replies) :
    Follows set (o.append next) (requests ++ later) replies := by
  obtain ⟨result, s⟩ := o
  obtain ⟨hresult, hrest⟩ := h
  cases result with
  | error e =>
    refine ⟨?_, fun hsome => by cases hsome⟩
    rw [answers_append, ← hresult]
    rfl
  | ok before =>
    obtain ⟨hresult', hrest'⟩ := hnext s
    rw [hrest rfl] at hresult' hrest'
    rw [Outcome.append, Outcome.andThen]
    generalize hrun : next s = p at hresult' hrest' ⊢
    obtain ⟨after, t⟩ := p
    cases after with
    | error e =>
      refine ⟨?_, fun hsome => by cases hsome⟩
      rw [answers_append, ← hresult]
      change none = (answers set later _).map _
      rw [← hresult']
      rfl
    | ok after =>
      refine ⟨?_, fun _ => ?_⟩
      · rw [answers_append, ← hresult]
        change some (before ++ after) = (answers set later _).map _
        rw [← hresult']
        rfl
      · rw [length_append, ← drop_drop]
        exact hrest' rfl

theorem follows_execCommand (set : CommandSet) (cmd : FSCommand) (params : Int)
    (args : List UnicodeString) (target : Option UnicodeString) (realises : Bool) (s : Session)
    {after : Session → Session} (hafter : ∀ t, (after t).replies = t.replies) :
    Follows set ((execCommand set cmd params args target realises s).andThen
      fun result s => (.ok [result], after s)) [⟨cmd, params, args⟩] s.replies := by
  rw [execCommand_eq]
  dsimp only
  cases hreplies : s.replies with
  | nil => exact ⟨rfl, fun hsome => by cases hsome⟩
  | cons reply replies =>
    dsimp only
    cases hread : reply.read with
    | none => exact ⟨by simp [answers, hread]; rfl, fun hsome => by cases hsome⟩
    | some read =>
      dsimp only
      cases herror : commandError set cmd params args reply.stdError read.1 read.2 with
      | some e => exact ⟨by simp [answers, hread, herror]; rfl, fun hsome => by cases hsome⟩
      | none => exact ⟨by simp [answers, hread, herror]; rfl, fun _ => hafter _⟩

theorem follows_exec (set : CommandSet) (cmd : FSCommand) (params : Int)
    (args : List UnicodeString) (s : Session) :
    Follows set (exec set cmd params args s) [⟨cmd, params, args⟩] s.replies :=
  follows_execCommand set cmd params args none false s fun _ => rfl

theorem follows_cdTo (set : CommandSet) (directory : UnicodeString) (realises : Bool)
    (s : Session) :
    Follows set (cdTo set directory realises s) [⟨.fsChangeDirectory, 0, [toDir directory]⟩]
      s.replies :=
  follows_execCommand set _ 0 _ (some directory) realises s fun _ => rfl

/-- The second attempt is never made: the first fails only when the connection is
lost. -/
theorem copyFile_eq (set : CommandSet) (fileName newName : UnicodeString) (s : Session) :
    copyFile set fileName newName s =
      exec set .fsCopyFile 0 [wstr "-T", delimitStr fileName, delimitStr newName] s := by
  unfold copyFile exec
  cases hrun : execCommand set .fsCopyFile 0
      [wstr "-T", delimitStr fileName, delimitStr newName] none false s with
  | mk result t =>
    cases result with
    | ok r => rfl
    | error e => simp [Outcome.andThen, Outcome.recover, execCommand_quiet_error hrun]

theorem follows_changeDirectory (set : CommandSet) (directory : UnicodeString) (s : Session) :
    Follows set (changeDirectory set directory s)
      ((Operation.changeDirectory directory).requests chmodStr s) s.replies := by
  rw [changeDirectory_eq, ← s.resetIfNeeded_replies]
  unfold Operation.requests
  dsimp only
  generalize s.resetIfNeeded = t
  split
  · exact follows_cdTo set directory false t
  · exact (follows_cdTo set t.cachedDirectoryChange true
      { t with cachedDirectoryChange := [] }).append (follows_cdTo set directory false)

theorem follows_changeFileToken (set : CommandSet) (name : UnicodeString) (token : Token)
    (cmd : FSCommand) (recursiveStr : UnicodeString) (s : Session) :
    Follows set (changeFileToken set name token cmd recursiveStr s)
      (if token.str ≠ [] then [⟨cmd, 0, [recursiveStr, token.str, name]⟩] else []) s.replies := by
  unfold changeFileToken
  split
  · exact follows_exec ..
  · exact follows_nil s

theorem follows_ite {cond : Prop} [Decidable cond] {run : Session → Outcome (List Result)}
    (h : ∀ s, Follows set (run s) requests s.replies) (s : Session) :
    Follows set (if cond then run s else (.ok [], s)) (if cond then requests else []) s.replies := by
  split
  · exact h s
  · exact follows_nil s

theorem follows_changeFileProperties (set : CommandSet) (fileName : UnicodeString)
    (isDirectory : Option Bool) (properties : Properties) (s : Session) :
    Follows set (changeFileProperties set chmodStr fileName isDirectory properties s)
      ((Operation.changeFileProperties fileName isDirectory properties).requests chmodStr s)
      s.replies := by
  unfold changeFileProperties Operation.requests
  refine Follows.append (Follows.append ?_ fun s => ?_) fun s => ?_
  · cases properties.group with
    | none => exact follows_nil s
    | some group => exact follows_changeFileToken ..
  · cases properties.owner with
    | none => exact follows_nil s
    | some owner => exact follows_changeFileToken ..
  · cases properties.rights with
    | none => exact follows_nil s
    | some rights =>
      exact (follows_ite (fun s => follows_exec ..) s).append
        (follows_ite fun s => follows_exec ..)

/-- An operation runs its commands in order and returns when none of them
raises an error. -/
theorem Operation.follows (op : Operation) (s : Session) :
    Follows set (op.run set chmodStr s) (op.requests chmodStr s) s.replies := by
  cases op with
  | changeDirectory directory => exact follows_changeDirectory set directory s
  | changeFileProperties fileName isDirectory properties =>
    exact follows_changeFileProperties set fileName isDirectory properties s
  | copyFile fileName newName =>
    rw [Operation.run, copyFile_eq]
    exact follows_exec ..
  | deleteFile fileName params => exact follows_exec ..
  | renameFile fileName newName => exact follows_exec ..
  | createDirectory dirName => exact follows_exec ..
  | createLink fileName pointTo symbolic => exact follows_exec ..

/-! ## When a failure is missed -/

theorem commandError_isSome {q : Request} {stdError : UnicodeString} {output : List UnicodeString}
    {code : Int} (h : (commandError set q.cmd q.params q.args stdError output code).isSome = true) :
    ecParams q.params &&& ecRaiseExcept ≠ 0 := by
  intro hzero
  have hmask : flagSet (coParams (ecParams q.params)) coRaiseExcept = false := by
    have hflag : flagSet (ecParams q.params) ecRaiseExcept = false := by
      unfold flagSet
      rw [hzero]
      rfl
    unfold coParams
    rw [hflag]
    generalize flagSet _ ecOnlyReturnCode = a
    generalize flagSet _ ecIgnoreWarnings = b
    generalize flagSet _ ecReadProgress = c
    generalize flagSet _ ecIgnoreStdErr = d
    revert a b c d
    decide
  unfold commandError outputError at h
  simp [hmask, hzero] at h

theorem lost_cons {q : Request} {reply : Reply} :
    Lost (q :: requests) (reply :: replies) ↔ reply.read = none ∨ Lost requests replies := by
  unfold Lost
  simp only [length_cons, take_succ_cons, mem_cons, exists_eq_or_imp,
    Nat.add_lt_add_iff_right]
  tauto

/-- An operation does not return when the connection is lost or an error raised. -/
theorem answers_eq_none : answers set requests replies = none ↔
    Lost requests replies ∨ ∃ p ∈ requests.zip replies, Raises set p.1 p.2 := by
  induction requests generalizing replies with
  | nil => simp [answers, Lost]
  | cons q requests ih =>
    cases replies with
    | nil => simp [answers, Lost]
    | cons reply replies =>
      rw [lost_cons, zip_cons_cons, exists_mem_cons_iff, answers]
      cases hread : reply.read with
      | none => simp
      | some read =>
        obtain ⟨output, code⟩ := read
        dsimp only
        cases herror : commandError set q.cmd q.params q.args reply.stdError output code with
        | some e =>
          have hraises : Raises set q reply :=
            ⟨commandError_isSome (by rw [herror]; rfl), output, code, hread, by rw [herror]; rfl⟩
          simp [hraises]
        | none =>
          have hraises : ¬Raises set q reply := by
            intro ⟨_, output', code', hread', hsome⟩
            rw [hread] at hread'
            cases hread'
            rw [herror] at hsome
            cases hsome
          simp [hraises, ih]

theorem answers_succeeded {results : List Result}
    (h : answers set requests replies = some results) :
    (∀ r ∈ results, r.Succeeded) ↔ ∀ p ∈ requests.zip replies, Succeeds p.1 p.2 := by
  induction requests generalizing replies results with
  | nil =>
    cases h
    simp
  | cons q requests ih =>
    cases replies with
    | nil => cases h
    | cons reply replies =>
      rw [answers] at h
      cases hread : reply.read with
      | none =>
        rw [hread] at h
        cases h
      | some read =>
        obtain ⟨output, code⟩ := read
        simp only [hread] at h
        split at h
        · cases h
        · obtain ⟨rest, hrest, rfl⟩ := Option.map_eq_some_iff.mp h
          have hfirst : Succeeds q reply ↔ Result.Succeeded ⟨q.cmd, code, output.length⟩ := by
            unfold Succeeds
            simp [hread]
          rw [zip_cons_cons, forall_mem_cons, forall_mem_cons, ih hrest, hfirst]

/-- A failure is missed exactly when the connection is kept, no command sent
with the flag to raise errors shows one, and a command has failed. -/
theorem failures_reported_iff (set : CommandSet) (chmodStr : Rights → Option Bool → UnicodeString)
    (op : Operation) (s : Session) :
    Reported set chmodStr op s ↔ Unmissed set (op.requests chmodStr s) s.replies := by
  have hfollows : Follows set (op.run set chmodStr s) (op.requests chmodStr s) s.replies :=
    op.follows s
  have hresult := hfollows.result
  unfold Reported Unmissed
  rw [← or_assoc, ← answers_eq_none, ← hresult]
  generalize hrun : op.run set chmodStr s = o at hresult
  obtain ⟨result, t⟩ := o
  cases result with
  | error e => simp [Except.toOption]
  | ok results =>
    rw [← answers_succeeded hresult.symm]
    simp [Except.toOption]

/-- The session of an answer with return code 1. -/
def failingShell : Session where
  cachedDirectoryChange := []
  lastDirectory := []
  currentDirectory := []
  needsSessionReset := false
  active := true
  returnCode := 0
  output := []
  workingDirectory := wstr "/"
  home := wstr "/"
  replies := [⟨wstr "mv: no such file", [lastLine ++ wstr ":1"]⟩]
  location := wstr "/"
  sent := []

/-- A rename that the shell refuses returns as if it had been done. -/
theorem rename_failure_missed : ¬Reported ⟨wstr "$?", []⟩ (fun _ _ => [])
    (.renameFile (wstr "a") (wstr "b")) failingShell := by
  intro h
  have hread : Reply.read ⟨wstr "mv: no such file", [lastLine ++ wstr ":1"]⟩ = some ([], 1) := by
    decide +kernel
  have hresult := h [⟨.fsRenameFile, 1, 0⟩] _ (by
    rw [Operation.run, renameFile, exec, execCommand_eq, failingShell]
    simp only [hread, commandError_quiet]
    rfl) _ (List.mem_singleton.mpr rfl)
  exact absurd hresult.1 (by decide)

end NetBox.Scp
