import NetBox.Session.Scheme
import NetBox.Session.MaskedUrl

/-! # The URL of a session

`GenerateSessionUrl` writes a session as a URL, and `ParseUrl` reads it. With
user, password and directory written, the session should come back.

It does not for a session without a user, whose password is not written; for the
password that stands for an empty one, since `DenormalizeString` does not undo
`NormalizeString`; and for some IPv6 addresses, which are written as they are:
those in brackets, and those with a bracket or slash behind the percent sign.
-/
namespace NetBox.Session
open Base.Text List

/-! ## Writing the URL -/

def defaultPort (fsProtocol : FSProtocol) (ftps : Ftps) : Int :=
  match fsProtocol with
  | .ftp => if ftps = .implicit then ftpsImplicitPortNumber else ftpPortNumber
  | .webDav | .s3 => if ftps = .none then httpPortNumber else httpsPortNumber
  | .scpOnly | .sftp | .sftpOnly => sshPortNumber

/-- `GetProtocolUrl` without the separator. -/
def protocolName (httpForWebdav : Bool) (fsProtocol : FSProtocol) (ftps : Ftps) : UnicodeString :=
  match fsProtocol with
  | .scpOnly => wstr "scp"
  | .sftp | .sftpOnly => wstr "sftp"
  | .ftp =>
    if ftps = .implicit then wstr "ftps"
    else if ftps = .explicitTls ∨ ftps = .explicitSsl then wstr "ftpes"
    else wstr "ftp"
  | .webDav =>
    if httpForWebdav then if ftps = .implicit then wstr "https" else wstr "http"
    else if ftps = .implicit then wstr "davs" else wstr "dav"
  | .s3 => if ftps = .implicit then wstr "s3" else wstr "s3plain"

def hasIP6LiteralBrackets (hostName : UnicodeString) : Bool :=
  decide (hostName.length ≥ 2) && hostName.head? == some openBracket &&
    hostName.getLast? == some closeBracket

def stripIP6LiteralBrackets (hostName : UnicodeString) : UnicodeString :=
  (hostName.drop 1).take (hostName.length - 2)

/-- Nothing behind a percent sign is looked at. -/
def isIPv6Literal (hostName : UnicodeString) : Bool :=
  let buf :=
    if hasIP6LiteralBrackets hostName then stripIP6LiteralBrackets hostName else hostName
  let digits := buf.takeWhile (· != percent)
  digits.all (fun ch => ch == colon || isHex ch) && decide (2 ≤ digits.count colon)

def escapeIPv6Literal (ip : UnicodeString) : UnicodeString :=
  if hasIP6LiteralBrackets ip then ip else openBracket :: ip ++ [closeBracket]

/-- The text that stands for an empty password is written as one. -/
def normalizeString (str : UnicodeString) : UnicodeString := if str = [1, 1, 1] then [] else str

structure SessionUrlFlags where
  specific : Bool
  userName : Bool
  password : Bool
  httpForWebdav : Bool

/-- The user with an `@`. Without a user the password is not written either. -/
def userPart (t : TextApi) (flags : SessionUrlFlags) (user password : UnicodeString) :
    UnicodeString :=
  if flags.userName ∧ user ≠ [] then
    t.encodeUrlString user ++
      (if flags.password ∧ password ≠ [] then colon :: t.encodeUrlString (normalizeString password)
        else []) ++ [atSign]
  else []

def hostPart (t : TextApi) (host : UnicodeString) : UnicodeString :=
  if isIPv6Literal host then escapeIPv6Literal host else t.encodeUrlString host

def portPart (s : SessionData) : UnicodeString :=
  if s.portNumber ≠ defaultPort s.fsProtocol s.ftps then colon :: wstr (toString s.portNumber)
  else []

def directoryPart (t : TextApi) (flags : SessionUrlFlags) (directory : UnicodeString) :
    UnicodeString :=
  if flags.specific ∧ directory ≠ [] then
    let directory := if directory.head? ≠ some slash then slash :: directory else directory
    let path := t.encodeUrlPath directory
    if path.getLast? ≠ some slash then path ++ [slash] else path
  else [slash]

/-- `GenerateSessionUrl` without the host key. Environment variables are
expanded in user and host. -/
def generateSessionUrl (t : TextApi) (expand : UnicodeString → UnicodeString)
    (flags : SessionUrlFlags) (s : SessionData) : UnicodeString :=
  protocolName flags.httpForWebdav s.fsProtocol s.ftps ++ wstr "://" ++
    (userPart t flags (expand s.userName) s.password ++
      (hostPart t (expand s.hostName) ++ (portPart s ++ directoryPart t flags s.remoteDirectory)))

/-- User, password and directory are written. -/
def openFlags : SessionUrlFlags := ⟨true, true, true, false⟩

/-! ## The session that comes back -/

/-- The same but for a slash at the end. -/
def SameDirectory (a b : UnicodeString) : Prop := a = b ∨ a = b ++ [slash] ∨ a ++ [slash] = b

def RoundTrip (t : Platform) (call : ParseCall) (s : SessionData) (url : UnicodeString) : Prop :=
  ∃ r, parseUrl t call url = some r ∧
    r.session.fsProtocol = s.fsProtocol ∧ r.session.ftps = s.ftps ∧
    r.session.hostName = s.hostName ∧ r.session.userName = s.userName ∧
    r.session.password = s.password ∧ r.session.portNumber = s.portNumber ∧
    SameDirectory r.session.remoteDirectory s.remoteDirectory

/-- The pairs of protocol and encryption that a URL can name. -/
def supported : List (FSProtocol × Ftps) :=
  [(.scpOnly, .none), (.sftpOnly, .none), (.ftp, .none), (.ftp, .implicit), (.ftp, .explicitTls),
   (.webDav, .none), (.webDav, .implicit), (.s3, .none), (.s3, .implicit)]

/-- A session whose fields can be written: no environment variables are
expanded, the texts that are encoded are decoded again, and the host is not one
for which WebDAV is replaced by S3. -/
structure Writable (t : Platform) (expand : UnicodeString → UnicodeString) (s : SessionData) :
    Prop where
  protocol : (s.fsProtocol, s.ftps) ∈ supported
  user_expand : expand s.userName = s.userName
  host_expand : expand s.hostName = s.hostName
  host_at : atSign ∉ s.hostName
  password : s.password ≠ []
  port : 1 ≤ s.portNumber ∧ s.portNumber ≤ 65535
  directory : s.remoteDirectory.head? = some slash
  cloud : s.fsProtocol = .webDav →
    cloudDomains.any (isDomainOrSubdomain t.toTextApi s.hostName) = false
  user_decode : t.decodeUrlChars (t.encodeUrlString s.userName) = s.userName
  host_decode : t.decodeUrlChars (t.encodeUrlString s.hostName) = s.hostName
  password_decode : t.decodeUrlChars (t.encodeUrlString (normalizeString s.password)) =
    normalizeString s.password
  directory_decode : t.decodeUrlChars (t.encodeUrlPath s.remoteDirectory) = s.remoteDirectory

/-- An IPv6 address is not in brackets, and has no closing bracket or slash in it. -/
def HostSafe (host : UnicodeString) : Prop :=
  isIPv6Literal host = true →
    hasIP6LiteralBrackets host = false ∧ closeBracket ∉ host ∧ slash ∉ host

/-- There is a user, the password is not the one for an empty password, the host
can be written, and the root directory is what the session starts from anyway. -/
def UrlSafe (call : ParseCall) (s : SessionData) : Prop :=
  s.userName ≠ [] ∧ s.password ≠ [1, 1, 1] ∧ HostSafe s.hostName ∧
  (s.remoteDirectory = [slash] → SameDirectory call.start.remoteDirectory [slash])

/-! ## The protocol -/

section Protocol

variable {t : TextApi} {a b : UnicodeString}

/-- Lower-case ASCII texts are compared as they are. -/
def isLowerText (a : UnicodeString) : Bool :=
  a.all fun c => decide (c < 128) && !(decide (65 ≤ c) && decide (c ≤ 90))

theorem lowerCase_eq (h : isLowerText a = true) : t.lowerCase a = a := t.lowerCase_lower h

theorem sameText_lower (ha : isLowerText a = true) (hb : isLowerText b = true) :
    t.sameText a b = (a == b) := by
  have hascii : isAscii b = true :=
    all_eq_true.mpr fun c hc => (Bool.and_eq_true_iff.mp (all_eq_true.mp hb c hc)).1
  rw [Bool.eq_iff_iff, TextApi.sameText_iff hascii, lowerCase_eq ha, lowerCase_eq hb, beq_iff_eq]

theorem protocols_lower (httpForWebdav hasNetboxPrefix : Bool) :
    ∀ row ∈ protocols httpForWebdav hasNetboxPrefix, isLowerText row.name = true ∧
      isLowerText (winScpProtocolPrefix ++ row.name) = true := by
  cases httpForWebdav <;> cases hasNetboxPrefix <;> decide

theorem protocolNamed_lower (httpForWebdav hasNetboxPrefix : Bool) (ha : isLowerText a = true) :
    protocolNamed t httpForWebdav hasNetboxPrefix a =
      (protocols httpForWebdav hasNetboxPrefix).find? fun row =>
        a == row.name || a == winScpProtocolPrefix ++ row.name := by
  have hnamed : ∀ row ∈ protocols httpForWebdav hasNetboxPrefix, row.isNamed t a =
      (a == row.name || a == winScpProtocolPrefix ++ row.name) := by
    intro row hrow
    obtain ⟨hname, hprefixed⟩ := protocols_lower _ _ row hrow
    rw [ProtocolRow.isNamed, sameText_lower ha hname, sameText_lower ha hprefixed]
  rw [protocolNamed]
  revert hnamed
  generalize protocols httpForWebdav hasNetboxPrefix = rows
  intro hnamed
  induction rows with
  | nil => rfl
  | cons row rows ih =>
    rw [List.find?_cons, List.find?_cons, hnamed row mem_cons_self,
      ih fun r hr => hnamed r (mem_cons_of_mem _ hr)]

/-- The row of a pair of protocol and encryption. -/
def rowOf (p : FSProtocol × Ftps) : ProtocolRow :=
  ⟨protocolName false p.1 p.2, p.1, p.2, defaultPort p.1 p.2⟩

/-- The protocol that was written is found. -/
theorem protocolNamed_protocolName (httpForWebdav : Bool) {p : FSProtocol × Ftps}
    (hp : p ∈ supported) :
    protocolNamed t httpForWebdav false (protocolName false p.1 p.2) = some (rowOf p) ∧
      colon ∉ protocolName false p.1 p.2 ∧
      t.sameText (protocolName false p.1 p.2) (wstr "netbox") = false := by
  have hlow : isLowerText (protocolName false p.1 p.2) = true := by
    revert p
    decide
  rw [protocolNamed_lower _ _ hlow, sameText_lower hlow (by decide)]
  revert p
  cases httpForWebdav <;> decide

theorem cutProtocol_written (httpForWebdav : Bool) {p : FSProtocol × Ftps} (hp : p ∈ supported)
    (z : UnicodeString) :
    ∃ masked, cutProtocol t httpForWebdav (protocolName false p.1 p.2 ++ wstr "://" ++ z) =
      ⟨some (rowOf p), masked, z⟩ := by
  obtain ⟨hnamed, hcolon, hnetbox⟩ := protocolNamed_protocolName (t := t) httpForWebdav hp
  have hurl : protocolName false p.1 p.2 ++ wstr "://" ++ z =
      protocolName false p.1 p.2 ++ colon :: (wstr "//" ++ z) := by
    rw [append_assoc]
    rfl
  have hslashes : cutSlashes (wstr "//" ++ z) = (wstr "//", z) := by
    rw [cutSlashes, if_pos (by rfl)]
    rfl
  refine ⟨protocolName false p.1 p.2 ++ colon :: wstr "//", ?_⟩
  rw [hurl, cutProtocol, cutNetbox_eq, doIsProtocolUrl_split (by decide) hcolon, hnetbox,
    if_neg Bool.false_ne_true]
  dsimp only
  rw [cutNamed_split _ _ hcolon, hnamed, hslashes]

end Protocol

/-! ## What each step of the parser changes -/

section Fields

variable {t : Platform} {call : ParseCall} {aUrl url masked userInfo hostInfo path : UnicodeString}
  {row : ProtocolRow}

theorem setHostName_eq (value : UnicodeString) (session : SessionData) :
    ∃ user, setHostName value session =
      { session with userName := user, hostName := (setHostName value session).hostName } := by
  unfold setHostName
  dsimp only
  split
  · exact ⟨session.userName, rfl⟩
  · split
    · exact ⟨_, rfl⟩
    · exact ⟨session.userName, rfl⟩

theorem setHostName_hostName {value : UnicodeString} (h : atSign ∉ value) (session : SessionData) :
    (setHostName value session).hostName = value := by
  unfold setHostName
  split
  next he => exact he
  next => rw [lastDelimiter_absent h, if_neg (Nat.lt_irrefl 0)]

theorem parseHost_eq (hostInfo : UnicodeString) (session : SessionData) :
    ∃ user host, (parseHost t.toTextApi hostInfo session).1 =
      { session with userName := user, hostName := host } := by
  unfold parseHost
  dsimp only
  split
  · obtain ⟨user, h⟩ := setHostName_eq ((hostInfo.drop 1).take (pos [closeBracket] hostInfo - 2)) session
    exact ⟨_, _, h⟩
  · obtain ⟨user, h⟩ := setHostName_eq
      (t.decodeUrlChars (cutToChar hostInfo colon true).1) session
    exact ⟨_, _, h⟩

theorem parsePort_eq (row : ProtocolRow) (rest : UnicodeString) (session : SessionData) :
    ∃ port fsProtocol, parsePort t.toTextApi (some row) rest session =
      ({ session with portNumber := port }, some { row with fsProtocol }) := by
  unfold parsePort
  dsimp only
  split
  · split
    · exact ⟨_, row.fsProtocol, rfl⟩
    · exact ⟨session.portNumber, row.fsProtocol, rfl⟩
  · split
    · exact ⟨_, .s3, rfl⟩
    · exact ⟨_, row.fsProtocol, rfl⟩

theorem foldl_sessionParam (params : List (UnicodeString × UnicodeString)) (session : SessionData) :
    ∃ saveOnly, params.foldl (sessionParam t.toTextApi) session = { session with saveOnly } := by
  induction params generalizing session with
  | nil => exact ⟨session.saveOnly, rfl⟩
  | cons param params ih =>
    obtain ⟨b, hb⟩ := ih (sessionParam t.toTextApi session param)
    rw [foldl_cons, hb, sessionParam]
    split <;> exact ⟨b, rfl⟩

theorem setDirectory_eq (wantsFileName : Bool) (directory : UnicodeString) (session : SessionData) :
    ∃ requireDirectories, (setDirectory t.toTextApi wantsFileName directory session).1 =
      { session with
        remoteDirectory := (setDirectory t.toTextApi wantsFileName directory session).1.remoteDirectory,
        requireDirectories } := by
  unfold setDirectory
  dsimp only
  split
  · split <;> exact ⟨_, rfl⟩
  · exact ⟨session.requireDirectories, rfl⟩

theorem applyConnectionParams_nil (unsafeAllowed : Bool) (session : SessionData) :
    applyConnectionParams t unsafeAllowed [] session = session := rfl

theorem denormalizeString_eq (str : UnicodeString) : denormalizeString str = str := by
  unfold denormalizeString
  split
  next h => exact h.symm
  next => rfl

theorem parseUrl_adHoc
    (hcut : cutProtocol t.toTextApi call.httpForWebdav aUrl = ⟨some row, masked, url⟩)
    (hne : url ≠ [])
    (hsites : ∀ text, findStored t.toTextApi text (call.candidates true) = some none) :
    ∃ r, parseUrl t call aUrl = some r ∧
      r.session = setProtocol
        (parseAdHoc t call.flags.unsafeAllowed (some row) url call.start).2.1
        (setDirectory t.toTextApi call.wantsFileName
          (parseAdHoc t call.flags.unsafeAllowed (some row) url call.start).2.2
          (parseAdHoc t call.flags.unsafeAllowed (some row) url call.start).1).1 := by
  unfold parseUrl
  rw [hcut]
  dsimp only
  rw [if_neg hne, Option.isSome_some, hsites]
  generalize parseAdHoc t call.flags.unsafeAllowed (some row) url call.start = result
  exact ⟨_, rfl, rfl⟩

/-- What is read from a URL that has a protocol and names no site. -/
theorem parseUrl_read
    (hcut : cutProtocol t.toTextApi call.httpForWebdav aUrl = ⟨some row, masked, url⟩)
    (hne : url ≠ [])
    (hsites : ∀ text, findStored t.toTextApi text (call.candidates true) = some none)
    (hsplit : splitAdHoc url = ⟨userInfo, hostInfo, path⟩)
    (hparams : (splitUserInfo userInfo).connectionParams = []) :
    ∃ r session, parseUrl t call aUrl = some r ∧
      session.remoteDirectory = call.start.remoteDirectory ∧
      r.session.hostName = (parseHost t.toTextApi hostInfo call.start).1.hostName ∧
      r.session.userName = t.decodeUrlChars (splitUserInfo userInfo).rawUserName ∧
      r.session.password = t.decodeUrlChars (splitUserInfo userInfo).rawPassword ∧
      r.session.ftps = row.ftps ∧
      r.session.portNumber = (parsePort t.toTextApi (some row)
        (parseHost t.toTextApi hostInfo call.start).2
        (parseHost t.toTextApi hostInfo call.start).1).1.portNumber ∧
      some r.session.fsProtocol = (parsePort t.toTextApi (some row)
        (parseHost t.toTextApi hostInfo call.start).2
        (parseHost t.toTextApi hostInfo call.start).1).2.map (·.fsProtocol) ∧
      r.session.remoteDirectory = (setDirectory t.toTextApi call.wantsFileName
        (cutToChar path semicolon false).1 session).1.remoteDirectory := by
  obtain ⟨user, host, hhost⟩ := parseHost_eq (t := t) hostInfo call.start
  obtain ⟨port, fsProtocol, hport⟩ := parsePort_eq (t := t) row
    (parseHost t.toTextApi hostInfo call.start).2 (parseHost t.toTextApi hostInfo call.start).1
  have hadhoc : ∃ saveOnly, parseAdHoc t call.flags.unsafeAllowed (some row) url call.start =
      ({ (parseHost t.toTextApi hostInfo call.start).1 with
          portNumber := port, ftps := row.ftps,
          userName := t.decodeUrlChars (splitUserInfo userInfo).rawUserName,
          password := t.decodeUrlChars (splitUserInfo userInfo).rawPassword, saveOnly },
        some { row with fsProtocol }, (cutToChar path semicolon false).1) := by
    unfold parseAdHoc
    rw [hsplit]
    dsimp only
    rw [hport]
    dsimp only
    rw [hparams]
    obtain ⟨saveOnly, hsave⟩ := foldl_sessionParam (t := t) (cutParams
      (cutToChar path semicolon false).2.length (cutToChar path semicolon false).2)
      { (parseHost t.toTextApi hostInfo call.start).1 with
        portNumber := port, ftps := row.ftps,
        userName := t.decodeUrlChars (splitUserInfo userInfo).rawUserName,
        password := t.decodeUrlChars (splitUserInfo userInfo).rawPassword }
    refine ⟨saveOnly, ?_⟩
    rw [applyConnectionParams_nil, denormalizeString_eq, ite_self, hsave]
  obtain ⟨saveOnly, hadhoc⟩ := hadhoc
  obtain ⟨requireDirectories, hdirectory⟩ := setDirectory_eq (t := t) call.wantsFileName
    (cutToChar path semicolon false).1 (parseAdHoc t call.flags.unsafeAllowed (some row) url call.start).1
  obtain ⟨r, hr, hsession⟩ := parseUrl_adHoc hcut hne hsites
  refine ⟨r, (parseAdHoc t call.flags.unsafeAllowed (some row) url call.start).1, hr, ?_⟩
  rw [hadhoc] at hsession hdirectory ⊢
  dsimp only at hsession hdirectory ⊢
  rw [hdirectory] at hsession
  rw [hsession, hport]
  exact ⟨by rw [hhost], rfl, rfl, rfl, rfl, rfl, rfl, rfl⟩

end Fields

/-! ## The user -/

section User

variable {t : TextApi} {user password h rest : UnicodeString}

/-- What stands before the "at" sign. -/
def writtenUser (t : TextApi) (user password : UnicodeString) : UnicodeString :=
  if user = [] then []
  else t.encodeUrlString user ++ colon :: t.encodeUrlString (normalizeString password)

theorem splitAdHoc_written (t : TextApi) (user : UnicodeString) (hp : password ≠ []) (hslash : slash ∉ h) (hat : atSign ∉ h)
    (hrest : rest = [] ∨ ∃ r, rest = slash :: r) :
    splitAdHoc (userPart t openFlags user password ++ (h ++ rest)) =
      ⟨writtenUser t user password, h, rest⟩ := by
  by_cases hu : user = []
  · simp only [userPart, writtenUser, hu, ne_eq, not_true_eq_false, and_false, if_false, if_true,
      nil_append]
    rw [splitAdHoc_eq hslash hrest, lastDelimiter_absent hat, if_neg (Nat.lt_irrefl 0)]
  · have hsplit := splitAdHoc_at
      (x := t.encodeUrlString user ++ colon :: t.encodeUrlString (normalizeString password))
      (by simp [not_mem_encodeUrlString slash (by decide) t,
        show slash ≠ colon by decide]) hslash hat hrest
    simpa [userPart, openFlags, writtenUser, hu, hp] using hsplit

theorem splitUserInfo_written (t : TextApi) (user password : UnicodeString) :
    splitUserInfo (writtenUser t user password) =
      ⟨t.encodeUrlString user, !user.isEmpty,
        if user = [] then [] else t.encodeUrlString (normalizeString password), []⟩ := by
  by_cases hu : user = []
  · subst hu
    rfl
  · have hsemi : semicolon ∉
        t.encodeUrlString user ++ colon :: t.encodeUrlString (normalizeString password) := by
      simp [not_mem_encodeUrlString semicolon (by decide) t,
        show semicolon ≠ colon by decide]
    have hcolon := not_mem_encodeUrlString colon (by decide) t user
    rw [writtenUser, if_neg hu, splitUserInfo, cutToChar_all hsemi]
    dsimp only
    rw [cutToChar_split hcolon, if_neg hu]
    simp [hu]

/-- The password comes back when there is a user and it is not the one for an
empty password. -/
theorem read_password_iff (hp : password ≠ [])
    (hdecode : t.decodeUrlChars (t.encodeUrlString (normalizeString password)) =
      normalizeString password) :
    t.decodeUrlChars (splitUserInfo (writtenUser t user password)).rawPassword = password ↔
      user ≠ [] ∧ password ≠ [1, 1, 1] := by
  rw [splitUserInfo_written]
  dsimp only
  by_cases hu : user = []
  · rw [if_pos hu]
    exact ⟨fun h => absurd h.symm hp, fun h => absurd hu h.1⟩
  · rw [if_neg hu, hdecode, normalizeString]
    split
    next h => exact ⟨fun he => absurd he.symm hp, fun hne => absurd h hne.2⟩
    next h => exact ⟨fun _ => ⟨hu, h⟩, fun _ => rfl⟩

end User

/-! ## The host -/

section Host

variable {t : TextApi} {host m port : UnicodeString}

/-- The digits of an IPv6 address, up to the percent sign. -/
def IsLiteral (m : UnicodeString) : Prop :=
  (∀ ch ∈ m.takeWhile (· != percent), ch = colon ∨ isHex ch = true) ∧
    colon ∈ m.takeWhile (· != percent)

/-- What is written for an IPv6 address stands in brackets. -/
theorem escape_literal (h : isIPv6Literal host = true) :
    ∃ m, escapeIPv6Literal host = openBracket :: m ++ [closeBracket] ∧ IsLiteral m ∧
      (hasIP6LiteralBrackets host = false ∧ host = m ∨
        hasIP6LiteralBrackets host = true ∧ host = openBracket :: m ++ [closeBracket]) := by
  have hliteral : ∀ m : UnicodeString,
      ((m.takeWhile (· != percent)).all (fun ch => ch == colon || isHex ch) &&
        decide (2 ≤ (m.takeWhile (· != percent)).count colon)) = true → IsLiteral m := by
    intro m hm
    rw [Bool.and_eq_true, all_eq_true, decide_eq_true_eq] at hm
    refine ⟨fun ch hch => by simpa using hm.1 ch hch, count_pos_iff.mp (by omega)⟩
  unfold isIPv6Literal at h
  cases hb : hasIP6LiteralBrackets host with
  | false =>
    rw [hb, if_neg Bool.false_ne_true] at h
    exact ⟨host, by rw [escapeIPv6Literal, hb, if_neg Bool.false_ne_true], hliteral _ h,
      .inl ⟨rfl, rfl⟩⟩
  | true =>
    rw [hb, if_pos rfl] at h
    have hshape : host = openBracket :: stripIP6LiteralBrackets host ++ [closeBracket] := by
      simp only [hasIP6LiteralBrackets, Bool.and_eq_true, decide_eq_true_eq, beq_iff_eq] at hb
      obtain ⟨⟨hlen, hhead⟩, hlast⟩ := hb
      obtain ⟨rest, rfl⟩ := head?_eq_some_iff.mp hhead
      obtain ⟨init, hinit⟩ := getLast?_eq_some_iff.mp hlast
      cases init with
      | nil =>
        rw [hinit] at hlen
        simp at hlen
      | cons c init =>
        rw [cons_append, cons_eq_cons] at hinit
        obtain ⟨rfl, rfl⟩ := hinit
        simp [stripIP6LiteralBrackets]
    exact ⟨_, by rw [escapeIPv6Literal, hb, if_pos rfl]; exact hshape, hliteral _ h,
      .inr ⟨rfl, hshape⟩⟩

theorem setHostName_suffix (value : UnicodeString) (session : SessionData) :
    (setHostName value session).hostName <:+ value := by
  unfold setHostName
  dsimp only
  split
  next h => exact h ▸ suffix_rfl
  next =>
    split
    · exact drop_suffix _ _
    · exact suffix_rfl

/-- A host in brackets ends at the first closing one. -/
theorem parseHost_bracket {k l : UnicodeString} (hk : closeBracket ∉ k) (session : SessionData) :
    parseHost t (openBracket :: k ++ closeBracket :: l) session =
      (setHostName k session, if l.head? = some colon then l.drop 1 else l) := by
  have hpos : pos [closeBracket] (openBracket :: k ++ closeBracket :: l) = k.length + 2 :=
    pos_split (a := openBracket :: k) (by simp [hk, show closeBracket ≠ openBracket by decide]) l
  unfold parseHost
  rw [hpos]
  dsimp only
  rw [if_pos ⟨by simp; omega, rfl, by omega⟩]
  simp

theorem parseHost_plain {k : UnicodeString} (hk : closeBracket ∉ k ∨ k.head? ≠ some openBracket)
    (session : SessionData) :
    parseHost t k session =
      (setHostName (t.decodeUrlChars (cutToChar k colon true).1) session,
        (cutToChar k colon true).2) := by
  unfold parseHost
  dsimp only
  rw [if_neg]
  rintro ⟨-, hhead, hp⟩
  rcases hk with hk | hk
  · rw [pos_absent hk] at hp
    omega
  · exact hk hhead

/-- The port is written in digits, or not at all. -/
def IsPort (port : UnicodeString) : Prop :=
  port = [] ∨ ∃ digits, port = colon :: digits ∧ ∀ ch ∈ digits, isDigit ch = true

theorem IsPort.not_mem (h : IsPort port) (ch : WChar) (hc : ch ≠ colon) (hd : isDigit ch = false) :
    ch ∉ port := by
  obtain rfl | ⟨digits, rfl, hdigits⟩ := h
  · exact not_mem_nil
  · intro hmem
    rcases mem_cons.mp hmem with he | he
    · exact hc he
    · rw [hdigits ch he] at hd
      cases hd

/-- A host that can be written is read. -/
theorem parseHost_written (hsafe : HostSafe host) (hat : atSign ∉ host)
    (hdecode : t.decodeUrlChars (t.encodeUrlString host) = host) (hport : IsPort port)
    (session : SessionData) :
    parseHost t (hostPart t host ++ port) session = (setHostName host session, port.drop 1) ∧
      slash ∉ hostPart t host ++ port ∧ atSign ∉ hostPart t host ++ port := by
  have hslash := hport.not_mem slash (by decide) (by decide)
  have hat' := hport.not_mem atSign (by decide) (by decide)
  rw [hostPart]
  by_cases hlit : isIPv6Literal host = true
  · obtain ⟨hbrackets, hclose, hsl⟩ := hsafe hlit
    have hwritten : escapeIPv6Literal host ++ port = openBracket :: host ++ closeBracket :: port := by
      rw [escapeIPv6Literal, hbrackets, if_neg Bool.false_ne_true, append_assoc]
      rfl
    rw [if_pos hlit, hwritten, parseHost_bracket hclose]
    refine ⟨?_, ?_, ?_⟩
    · obtain rfl | ⟨digits, rfl, -⟩ := hport <;> simp
    · simp [hsl, hslash, show slash ≠ openBracket by decide, show slash ≠ closeBracket by decide]
    · simp [hat, hat', show atSign ≠ openBracket by decide, show atSign ≠ closeBracket by decide]
  · have hclose : closeBracket ∉ t.encodeUrlString host ++ port := by
      simp [not_mem_encodeUrlString closeBracket (by decide) t,
        hport.not_mem closeBracket (by decide) (by decide)]
    have hcolon := not_mem_encodeUrlString colon (by decide) t host
    have htrim : trimRight (t.encodeUrlString host) = t.encodeUrlString host :=
      trimRight_eq ⟨not_mem_encodeUrlString _ (by decide) t host,
        not_mem_encodeUrlString _ (by decide) t host, not_mem_encodeUrlString _ (by decide) t host,
        not_mem_encodeUrlString _ (by decide) t host⟩
    have hcut : cutToChar (t.encodeUrlString host ++ port) colon true =
        (t.encodeUrlString host, port.drop 1) := by
      obtain rfl | ⟨digits, rfl, hdigits⟩ := hport
      · simp [cutToChar, takeWhile_all hcolon, dropWhile_all hcolon, htrim, trimLeft]
      · have hleft : trimLeft digits = digits := by
          cases digits with
          | nil => rfl
          | cons d digits =>
            have hd : d ≠ 32 := by
              rintro rfl
              exact absurd (hdigits 32 mem_cons_self) (by decide)
            rw [trimLeft, dropWhile_cons_of_neg (by simpa using hd)]
        simp [cutToChar, takeWhile_until hcolon, dropWhile_until hcolon, htrim, hleft]
    rw [if_neg hlit, parseHost_plain (.inl hclose), hcut, hdecode]
    refine ⟨rfl, ?_, ?_⟩
    · simp [hslash, not_mem_encodeUrlString slash (by decide) t]
    · simp [hat', not_mem_encodeUrlString atSign (by decide) t]

/-- A slash of an address lies behind the percent sign, so that the text before
the first colon is one of digits. -/
theorem not_percent_before_colon {m1 m2 : UnicodeString} (h : IsLiteral (m1 ++ slash :: m2)) :
    percent ∉ m1.takeWhile (· != colon) ∧ colon ∈ m1 := by
  have hslash : slash ∉ (m1 ++ slash :: m2).takeWhile (· != percent) := by
    intro hmem
    exact (h.1 slash hmem).elim (by decide) (by decide)
  have hpercent : percent ∈ m1 := by
    by_contra hno
    apply hslash
    rw [takeWhile_append_of_pos fun x hx => by
      simpa using fun he : x = percent => hno (he ▸ hx)]
    simp [show slash ≠ percent by decide]
  obtain ⟨digits, zone, rfl, hdigits⟩ := exists_first hpercent
  have htake : (digits ++ percent :: zone ++ slash :: m2).takeWhile (· != percent) = digits := by
    rw [append_assoc, cons_append, takeWhile_until hdigits]
  rw [IsLiteral, htake] at h
  obtain ⟨x, y, rfl, hx⟩ := exists_first h.2
  rw [append_assoc, cons_append, takeWhile_until hx]
  exact ⟨fun hmem => hdigits (mem_append_left _ hmem), by simp⟩

theorem colon_not_mem_decode (t : TextApi) {x : UnicodeString} (hp : percent ∉ x)
    (hc : colon ∉ x) : colon ∉ t.decodeUrlChars x := by
  rw [decodeUrlChars_plain t hp]
  intro hmem
  obtain ⟨c, hcx, hdec⟩ := mem_map.mp hmem
  rw [decodeChar] at hdec
  split at hdec
  · exact absurd hdec (by decide)
  · exact hc (hdec ▸ hcx)

/-- What is read in brackets is shorter than an address that is longer than it. -/
theorem bracket_ne {k l : UnicodeString} (hk : closeBracket ∉ k) (hlen : k.length < host.length)
    (session : SessionData) :
    (parseHost t (openBracket :: k ++ closeBracket :: l) session).1.hostName ≠ host := by
  rw [parseHost_bracket hk]
  intro he
  have := (setHostName_suffix k session).length_le
  rw [he] at this
  omega

/-- Another host is read for an address that cannot be written. -/
theorem parseHost_unsafe (hspoilt : ¬ HostSafe host) (hat : atSign ∉ host) (hport : IsPort port)
    (d : UnicodeString) (session : SessionData) :
    ∃ h rest, hostPart t host ++ (port ++ slash :: d) = h ++ rest ∧ slash ∉ h ∧ atSign ∉ h ∧
      (rest = [] ∨ ∃ r, rest = slash :: r) ∧ (parseHost t h session).1.hostName ≠ host := by
  unfold HostSafe at hspoilt
  rw [Classical.not_imp] at hspoilt
  obtain ⟨hlit, hbad⟩ := hspoilt
  obtain ⟨m, hescape, hliteral, hhost⟩ := escape_literal hlit
  have hsub : m ⊆ host := by
    rcases hhost with ⟨-, rfl⟩ | ⟨-, rfl⟩
    · exact fun _ h => h
    · exact fun x hx => by simp [hx]
  have hle : m.length ≤ host.length := by
    rcases hhost with ⟨-, rfl⟩ | ⟨-, rfl⟩
    · exact Nat.le_refl _
    · simp
      omega
  have hatm : atSign ∉ m := fun h => hat (hsub h)
  rw [hostPart, if_pos hlit, hescape]
  by_cases hsl : slash ∈ m
  · obtain ⟨m1, m2, rfl, hm1⟩ := exists_first hsl
    simp only [mem_append, mem_cons, not_or] at hatm
    refine ⟨openBracket :: m1, slash :: (m2 ++ closeBracket :: (port ++ slash :: d)), by simp,
      by simp [hm1, show slash ≠ openBracket by decide],
      by simp [hatm.1, show atSign ≠ openBracket by decide], .inr ⟨_, rfl⟩, ?_⟩
    by_cases hclose : closeBracket ∈ m1
    · obtain ⟨k, l, rfl, hk⟩ := exists_first hclose
      refine bracket_ne hk ?_ session
      simp at hle
      omega
    · obtain ⟨hpercent, hcolon⟩ := not_percent_before_colon hliteral
      rw [parseHost_plain (.inl (by simp [hclose, show closeBracket ≠ openBracket by decide]))]
      intro he
      have hmem : colon ∈ t.decodeUrlChars (cutToChar (openBracket :: m1) colon true).1 := by
        refine (setHostName_suffix _ session).subset ?_
        rw [he]
        exact hsub (mem_append_left _ hcolon)
      have hpart : (cutToChar (openBracket :: m1) colon true).1 <+:
          openBracket :: m1.takeWhile (· != colon) := by
        have := List.rdropWhile_prefix
          (fun ch : WChar => ch == 32 || ch == 10 || ch == 13 || ch == 0)
          (l := openBracket :: m1.takeWhile (· != colon))
        exact this
      refine colon_not_mem_decode t (fun h => ?_) (fun h => ?_) hmem
      · rcases mem_cons.mp (hpart.subset h) with he | he
        · exact absurd he (by decide)
        · exact hpercent he
      · rcases mem_cons.mp (hpart.subset h) with he | he
        · exact absurd he (by decide)
        · simpa using mem_takeWhile_imp he
  · refine ⟨openBracket :: m ++ closeBracket :: port, slash :: d, by simp, ?_, ?_, .inr ⟨_, rfl⟩, ?_⟩
    · simp [hsl, hport.not_mem slash (by decide) (by decide), show slash ≠ openBracket by decide,
        show slash ≠ closeBracket by decide]
    · simp [hatm, hport.not_mem atSign (by decide) (by decide),
        show atSign ≠ openBracket by decide, show atSign ≠ closeBracket by decide]
    · by_cases hclose : closeBracket ∈ m
      · obtain ⟨k, l, rfl, hk⟩ := exists_first hclose
        have := bracket_ne (t := t) (l := l ++ closeBracket :: port) hk
          (show k.length < host.length by simp at hle; omega) session
        simpa using this
      · refine bracket_ne hclose ?_ session
        rcases hhost with ⟨hbrackets, rfl⟩ | ⟨-, rfl⟩
        · exact absurd ⟨hbrackets, hclose, hsl⟩ hbad
        · rw [length_append, length_cons, length_singleton]
          omega

end Host

/-! ## Port and directory -/

section Rest

variable {t : Platform} {s session : SessionData}

theorem portPart_eq (hport : 1 ≤ s.portNumber ∧ s.portNumber ≤ 65535) :
    portPart s = if s.portNumber = defaultPort s.fsProtocol s.ftps then []
      else colon :: intToStr s.portNumber.toNat := by
  have hnat : (s.portNumber.toNat : Int) = s.portNumber := Int.toNat_of_nonneg (by omega)
  have htext : wstr (toString s.portNumber) = intToStr s.portNumber.toNat := by
    conv_lhs => rw [← hnat]
    rfl
  rw [portPart, htext]
  by_cases h : s.portNumber = defaultPort s.fsProtocol s.ftps
  · rw [if_neg fun hne => hne h, if_pos h]
  · rw [if_pos h, if_neg h]

theorem portPart_isPort (hport : 1 ≤ s.portNumber ∧ s.portNumber ≤ 65535) :
    IsPort (portPart s) := by
  rw [portPart_eq hport]
  split
  · exact .inl rfl
  · exact .inr ⟨_, rfl, fun ch => isDigit_of_mem_intToStr⟩

/-- The port that was written is read, and the protocol stays. -/
theorem parsePort_written (hport : 1 ≤ s.portNumber ∧ s.portNumber ≤ 65535)
    (hhost : session.hostName = s.hostName)
    (hcloud : s.fsProtocol = .webDav →
      cloudDomains.any (isDomainOrSubdomain t.toTextApi s.hostName) = false) :
    parsePort t.toTextApi (some (rowOf (s.fsProtocol, s.ftps))) ((portPart s).drop 1) session =
      ({ session with portNumber := s.portNumber }, some (rowOf (s.fsProtocol, s.ftps))) := by
  rw [portPart_eq hport]
  by_cases hdefault : s.portNumber = defaultPort s.fsProtocol s.ftps
  · have hno : ¬ ((rowOf (s.fsProtocol, s.ftps)).fsProtocol = .webDav ∧
        cloudDomains.any (isDomainOrSubdomain t.toTextApi s.hostName) = true) := by
      rintro ⟨hdav, hany⟩
      rw [hcloud hdav] at hany
      cases hany
    rw [if_pos hdefault, parsePort, if_neg (by simp)]
    dsimp only
    rw [hhost, if_neg hno, hdefault]
    rfl
  · have hdigits : percent ∉ intToStr s.portNumber.toNat := fun h =>
      absurd (isDigit_of_mem_intToStr h) (by decide)
    have hplain : (intToStr s.portNumber.toNat).map decodeChar = intToStr s.portNumber.toNat := by
      refine (map_congr_left fun ch hch => ?_).trans (map_id _)
      have hne : ch ≠ 43 := by
        rintro rfl
        exact absurd (isDigit_of_mem_intToStr hch) (by decide)
      rw [decodeChar, if_neg hne]
      rfl
    have hnumber : strToIntDef (t.decodeUrlChars (intToStr s.portNumber.toNat)) (-1) =
        s.portNumber := by
      rw [decodeUrlChars_plain _ hdigits, hplain, strToIntDef_intToStr (by omega) (by omega)]
      exact Int.toNat_of_nonneg (by omega)
    rw [if_neg hdefault, drop_succ_cons, drop_zero, parsePort,
      if_pos (intToStr_ne_nil _)]
    dsimp only
    rw [hnumber, if_pos ⟨by omega, hport.2⟩]

/-- The directory that was written ends in a slash. -/
theorem directoryPart_eq {directory : UnicodeString} (hslash : directory.head? = some slash)
    (hdecode : t.decodeUrlChars (t.encodeUrlPath directory) = directory) :
    ∃ path, directoryPart t.toTextApi openFlags directory = slash :: path ∧
      (slash :: path).getLast? = some slash ∧
      (∀ ch, isUrlChar ch = false → found [slash] ch = false → ch ∉ slash :: path) ∧
      SameDirectory (t.decodeUrlChars (slash :: path)) directory ∧
      (slash :: path = [slash] ↔ directory = [slash]) := by
  obtain ⟨rest, rfl⟩ := head?_eq_some_iff.mp hslash
  have hencode : t.encodeUrlPath (slash :: rest) = slash :: t.encodeUrlPath rest := rfl
  have hchars : ∀ ch, isUrlChar ch = false → found [slash] ch = false →
      ch ∉ slash :: t.encodeUrlPath rest :=
    fun ch hch hne => hencode ▸ not_mem_encodeUrlPath ch hch hne t.toTextApi (slash :: rest)
  have hwritten : directoryPart t.toTextApi openFlags (slash :: rest) =
      if (slash :: t.encodeUrlPath rest).getLast? ≠ some slash then
        slash :: (t.encodeUrlPath rest ++ [slash]) else slash :: t.encodeUrlPath rest := by
    simp [directoryPart, openFlags, hencode]
  rw [hwritten]
  rw [hencode] at hdecode
  by_cases hlast : (slash :: t.encodeUrlPath rest).getLast? = some slash
  · refine ⟨_, if_neg fun hne => hne hlast, hlast, hchars, .inl hdecode, fun he => ?_, fun he => ?_⟩
    · rw [he] at hdecode
      exact hdecode.symm
    · rw [cons_eq_cons] at he
      rw [he.2]
      rfl
  · refine ⟨t.encodeUrlPath rest ++ [slash], if_pos hlast, ?_, fun ch hch hne => ?_,
      .inr (.inl ?_), fun he => ?_, fun he => ?_⟩
    · rw [← cons_append, getLast?_append]
      rfl
    · rw [← cons_append, mem_append, not_or]
      refine ⟨hchars ch hch hne, fun hmem => ?_⟩
      rw [mem_singleton.mp hmem] at hne
      exact absurd hne (by decide)
    · rw [← cons_append, decodeUrlChars_slash, hdecode]
    · simp at he
    · rw [cons_eq_cons] at he
      rw [he.2] at hlast
      exact absurd rfl hlast

/-- A path that ends in a slash is taken as a whole, and the root not at all. -/
theorem setDirectory_written (wantsFileName : Bool) {path : UnicodeString}
    (hlast : (slash :: path).getLast? = some slash)
    (hchars : ∀ ch, isUrlChar ch = false → found [slash] ch = false → ch ∉ slash :: path)
    (session : SessionData) :
    (setDirectory t.toTextApi wantsFileName (cutToChar (slash :: path) semicolon false).1
        session).1.remoteDirectory =
      if slash :: path = [slash] then session.remoteDirectory
      else t.decodeUrlChars (slash :: path) := by
  have htrim : trimRight (slash :: path) = slash :: path := trimRight_slash hlast
  rw [cutToChar_all (hchars semicolon (by decide) (by decide)), setDirectory]
  dsimp only
  rw [htrim]
  by_cases hroot : slash :: path = [slash]
  · rw [if_neg fun h => h.2 hroot, if_pos hroot]
  · rw [if_pos ⟨cons_ne_nil _ _, hroot⟩, if_neg fun h => h.1 hlast, if_neg hroot]

end Rest

/-! ## The whole URL -/

theorem findStored_nil {t : TextApi} {call : ParseCall}
    (h : ∀ stored, call.storedSessions = some stored → stored.sessions = []) (text : UnicodeString) :
    findStored t text (call.candidates true) = some none := by
  unfold ParseCall.candidates
  split
  · cases hstored : call.storedSessions with
    | none => rfl
    | some stored => simp [findStored, h stored hstored]
  · rfl

/-- When the session comes back from its URL. -/
theorem round_trip_iff {t : Platform} {expand : UnicodeString → UnicodeString} {call : ParseCall}
    {s : SessionData} (hw : Writable t expand s)
    (hstored : ∀ stored, call.storedSessions = some stored → stored.sessions = []) :
    RoundTrip t call s (generateSessionUrl t.toTextApi expand openFlags s) ↔ UrlSafe call s := by
  have hsites := findStored_nil (t := t.toTextApi) hstored
  have hport := portPart_isPort hw.port
  obtain ⟨path, hpath, hlast, hchars, hsame, hroot⟩ :=
    directoryPart_eq hw.directory hw.directory_decode
  have hurl : generateSessionUrl t.toTextApi expand openFlags s =
      protocolName false s.fsProtocol s.ftps ++ wstr "://" ++
        (userPart t.toTextApi openFlags s.userName s.password ++
          (hostPart t.toTextApi s.hostName ++ (portPart s ++ slash :: path))) := by
    rw [generateSessionUrl, hw.user_expand, hw.host_expand, hpath]
    rfl
  obtain ⟨masked, hcut⟩ := cutProtocol_written (t := t.toTextApi) call.httpForWebdav hw.protocol
    (userPart t.toTextApi openFlags s.userName s.password ++
      (hostPart t.toTextApi s.hostName ++ (portPart s ++ slash :: path)))
  rw [hurl, RoundTrip]
  by_cases hsafe : HostSafe s.hostName
  · obtain ⟨hread, hslash, hat⟩ := parseHost_written hsafe hw.host_at hw.host_decode hport call.start
    rw [← List.append_assoc (hostPart _ _)] at hcut ⊢
    have hsplit := splitAdHoc_written t.toTextApi s.userName hw.password hslash hat
      (.inr ⟨path, rfl⟩)
    obtain ⟨r, session, hr, hstart, hhost, huser, hpassword, hftps, hportn, hfs, hdir⟩ :=
      parseUrl_read hcut (by simp) hsites hsplit (by rw [splitUserInfo_written])
    rw [hread] at hhost hportn hfs
    have hname := setHostName_hostName hw.host_at call.start
    rw [parsePort_written hw.port hname hw.cloud] at hportn hfs
    rw [setDirectory_written _ hlast hchars] at hdir
    constructor
    · rintro ⟨r', hr', -, -, -, -, hp, -, hd⟩
      obtain rfl : r = r' := Option.some.inj (hr.symm.trans hr')
      obtain ⟨hu, hne⟩ :=
        (read_password_iff hw.password hw.password_decode).mp (hpassword.symm.trans hp)
      refine ⟨hu, hne, hsafe, fun he => ?_⟩
      rwa [hdir, if_pos (hroot.mpr he), hstart, he] at hd
    · rintro ⟨hu, hne, -, hstartdir⟩
      refine ⟨r, hr, Option.some.inj hfs, hftps, hhost.trans hname, ?_, ?_, hportn, ?_⟩
      · rw [huser, splitUserInfo_written]
        exact hw.user_decode
      · exact hpassword.trans ((read_password_iff hw.password hw.password_decode).mpr ⟨hu, hne⟩)
      · rw [hdir]
        split
        next he =>
          rw [hstart, hroot.mp he]
          exact hstartdir (hroot.mp he)
        next => exact hsame
  · obtain ⟨h, rest, hparts, hslash, hat, hrest, hne⟩ :=
      parseHost_unsafe (t := t.toTextApi) hsafe hw.host_at hport path call.start
    rw [hparts] at hcut ⊢
    have hsplit := splitAdHoc_written t.toTextApi s.userName hw.password hslash hat
      hrest
    obtain ⟨r, -, hr, -, hhost, -⟩ :=
      parseUrl_read hcut (by rw [← hparts]; simp) hsites hsplit (by rw [splitUserInfo_written])
    constructor
    · rintro ⟨r', hr', -, -, hh, -⟩
      obtain rfl : r = r' := Option.some.inj (hr.symm.trans hr')
      exact absurd (hhost.symm.trans hh) hne
    · exact fun h => absurd h.2.2.1 hsafe

/-! ## Two sessions -/

def bobSession : SessionData where
  fsProtocol := .ftp
  ftps := .explicitTls
  hostName := wstr "fe80::1%2"
  portNumber := 2121
  userName := wstr "bob"
  password := wstr "p:w@/"
  remoteDirectory := wstr "/my dir"

theorem bobSession_writable : Writable asciiPlatform id bobSession where
  protocol := by decide
  user_expand := rfl
  host_expand := rfl
  host_at := by decide
  password := by decide
  port := by decide
  directory := by decide
  cloud := fun h => by cases h
  user_decode := by decide
  host_decode := by decide
  password_decode := by decide
  directory_decode := by decide

theorem round_trip_bob :
    RoundTrip asciiPlatform {} bobSession
      (generateSessionUrl asciiPlatform.toTextApi id openFlags bobSession) :=
  (round_trip_iff bobSession_writable (fun _ h => by cases h)).mpr
    ⟨by decide, by decide, fun _ => by decide, fun h => absurd h (by decide)⟩

/-- A session with the password that stands for an empty one. -/
def emptyPasswordSession : SessionData := { bobSession with password := [1, 1, 1] }

theorem emptyPasswordSession_lost : Writable asciiPlatform id emptyPasswordSession ∧
    ¬ RoundTrip asciiPlatform {} emptyPasswordSession
      (generateSessionUrl asciiPlatform.toTextApi id openFlags emptyPasswordSession) := by
  refine ⟨{ bobSession_writable with password := by decide, password_decode := by decide }, ?_⟩
  rintro ⟨r, hr, -, -, -, -, hpassword, -⟩
  have hread : (parseUrl asciiPlatform {} (generateSessionUrl asciiPlatform.toTextApi id openFlags
      emptyPasswordSession)).map (·.session.password) = some [] := by decide
  rw [hr, Option.map_some, hpassword] at hread
  exact absurd hread (by decide)

end NetBox.Session
