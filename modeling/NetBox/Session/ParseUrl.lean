import NetBox.Base.Url
import NetBox.Session.SiteList

/-! # Parsing a session URL

`TSessionData::ParseUrl` without the switches of a command line. A text is a
protocol and either the name of a stored site with a path, or user, password,
host, port and path. Beside the session it gives the text to show in its place,
in which the password is masked.

The password is kept as it is; in the source it is encrypted with a key made of
user and host.
-/
namespace NetBox.Session
open Base.Text

inductive FSProtocol
  | scpOnly | sftp | sftpOnly | ftp | webDav | s3
  deriving DecidableEq

inductive Ftps
  | none | implicit | explicitSsl | explicitTls
  deriving DecidableEq

structure SessionData where
  name : UnicodeString := []
  fsProtocol : FSProtocol := .sftp
  ftps : Ftps := .none
  hostName : UnicodeString := []
  portNumber : Int := 22
  userName : UnicodeString := []
  password : UnicodeString := []
  remoteDirectory : UnicodeString := []
  hostKey : UnicodeString := []
  requireDirectories : Bool := false
  saveOnly : Bool := false
  deriving DecidableEq

structure StoredSession where
  data : SessionData
  isWorkspace : Bool := false

/-- The list with its hidden sites in front, of which so many are counted. -/
structure StoredSessionList where
  sessions : List StoredSession
  hiddenCount : Nat := 0
  defaultSettings : SessionData := {}

def StoredSessionList.getCount (stored : StoredSessionList) : Nat :=
  stored.sessions.length - stored.hiddenCount

/-- The flags of `ParseUrl`. -/
structure UrlFlags where
  allowStoredSiteWithProtocol : Bool := false
  unsafeAllowed : Bool := false
  preferProtocol : Bool := false
  parseOnly : Bool := false

/-- What the parser takes from elsewhere. -/
structure Platform extends TextApi where
  applyRawSettings : Bool → List (UnicodeString × UnicodeString) → SessionData → SessionData

/-- A platform on which only ASCII matters. -/
def asciiPlatform : Platform where
  toTextApi := asciiText
  applyRawSettings _ _ session := session

/-! ## Protocols -/

def sshPortNumber : Int := 22
def ftpPortNumber : Int := 21
def ftpsImplicitPortNumber : Int := 990
def httpPortNumber : Int := 80
def httpsPortNumber : Int := 443

def winScpProtocolPrefix : UnicodeString := wstr "winscp-"

structure ProtocolRow where
  name : UnicodeString
  fsProtocol : FSProtocol
  ftps : Ftps
  defaultPort : Int
  deriving DecidableEq

/-- The protocols in the order in which they are tried. With `http` and `https`
either WebDAV or S3 is meant. -/
def protocols (httpForWebdav hasNetboxPrefix : Bool) : List ProtocolRow :=
  [⟨wstr "scp", .scpOnly, .none, sshPortNumber⟩,
   ⟨wstr "sftp", .sftpOnly, .none, sshPortNumber⟩,
   ⟨wstr "ftp", .ftp, .none, ftpPortNumber⟩,
   ⟨wstr "ftps", .ftp, .implicit, ftpsImplicitPortNumber⟩,
   ⟨wstr "ftpes", .ftp, .explicitTls, ftpPortNumber⟩,
   ⟨wstr "dav", .webDav, .none, httpPortNumber⟩] ++
  (if hasNetboxPrefix then [] else [⟨wstr "webdav", .webDav, .none, httpPortNumber⟩]) ++
  (if httpForWebdav then [⟨wstr "http", .webDav, .none, httpPortNumber⟩] else []) ++
  [⟨wstr "davs", .webDav, .implicit, httpsPortNumber⟩] ++
  (if httpForWebdav then [⟨wstr "https", .webDav, .implicit, httpsPortNumber⟩] else []) ++
  [⟨wstr "s3plain", .s3, .none, httpPortNumber⟩,
   ⟨wstr "http", .s3, .none, httpPortNumber⟩,
   ⟨wstr "s3", .s3, .implicit, httpsPortNumber⟩,
   ⟨wstr "https", .s3, .implicit, httpsPortNumber⟩,
   ⟨wstr "ssh", .sftpOnly, .none, sshPortNumber⟩]

def doIsProtocolUrl (t : TextApi) (url protocol : UnicodeString) : Bool :=
  t.sameText (url.take (protocol.length + 1)) (protocol ++ [colon])

/-- The length of the protocol with its colon, if the URL begins with it. -/
def isProtocolUrl (t : TextApi) (url protocol : UnicodeString) : Option Nat :=
  if doIsProtocolUrl t url protocol then some (protocol.length + 1)
  else if doIsProtocolUrl t url (winScpProtocolPrefix ++ protocol) then
    some ((winScpProtocolPrefix ++ protocol).length + 1)
  else none

/-- Two slashes at the beginning, and what follows. -/
def cutSlashes (url : UnicodeString) : UnicodeString × UnicodeString :=
  if url.take 2 = wstr "//" then (url.take 2, url.drop 2) else ([], url)

/-- The text without `netbox:` and the slashes behind it. -/
def cutNetbox (t : TextApi) (url : UnicodeString) : Bool × UnicodeString :=
  if t.lowerCase (url.take 7) = wstr "netbox:" then (true, (cutSlashes (url.drop 7)).2)
  else (false, url)

/-- A URL once its protocol is cut off. -/
structure CutUrl where
  protocol : Option ProtocolRow
  masked : UnicodeString
  url : UnicodeString

/-- Two slashes are cut off with the protocol. -/
def cutNamed (t : TextApi) (httpForWebdav hasNetboxPrefix : Bool) (url : UnicodeString) : CutUrl :=
  let found := (protocols httpForWebdav hasNetboxPrefix).findSome? fun row =>
    (isProtocolUrl t url row.name).map fun len => (row, len)
  match found with
  | none => ⟨none, [], url⟩
  | some (row, len) =>
    ⟨some row, url.take len ++ (cutSlashes (url.drop len)).1, (cutSlashes (url.drop len)).2⟩

def cutProtocol (t : TextApi) (httpForWebdav : Bool) (aUrl : UnicodeString) : CutUrl :=
  let (hasNetboxPrefix, url) := cutNetbox t aUrl
  cutNamed t httpForWebdav hasNetboxPrefix url

/-! ## Stored sites -/

/-- The name behind the first slash. -/
def nameWithoutFolder (name : UnicodeString) : UnicodeString :=
  match pos [slash] name with
  | 0 => name
  | p + 1 => name.drop (p + 1)

/-- The three rules by which a site is taken. The third one does not look at
what follows the name. -/
def matchesUrl (t : TextApi) (decodedUrl name : UnicodeString) : Bool :=
  let without := nameWithoutFolder name
  (without.length == decodedUrl.length && t.sameText without decodedUrl) ||
  (name.length == decodedUrl.length && t.sameText name decodedUrl) ||
  (decide (without.length < decodedUrl.length) && t.sameStart without.length without decodedUrl)

/-- The site that is taken. The loop goes over all sites, but `GetObj` gives a null pointer from
`GetCount` on, and there is no result when that is dereferenced. -/
def findStored (t : TextApi) (decodedUrl : UnicodeString) :
    Option StoredSessionList → Option (Option StoredSession)
  | none => some none
  | some stored =>
    match (stored.sessions.take stored.getCount).find? fun s =>
        !s.isWorkspace && matchesUrl t decodedUrl s.data.name with
    | some site => some (some site)
    | none => if stored.getCount < stored.sessions.length then none else some none

/-- The loop that looks for the part of the URL that decodes to the name, from
position `p` on. Nothing in the source stops it at the end of the URL. -/
def nameEndFrom (t : TextApi) (url name : UnicodeString) : Nat → Nat → Option Nat
  | 0, _ => none
  | fuel + 1, p =>
    if t.sameText (t.decodeUrlChars (url.take p)) name then some p
    else nameEndFrom t url name fuel (p + 1)

/-- The length of the URL is fuel enough, as `nameEnd_eq_none_iff` says. -/
def nameEnd (t : TextApi) (url name : UnicodeString) : Option Nat :=
  nameEndFrom t url name url.length 1

/-! ## A URL that names no site -/

def openBracket : WChar := 91
def closeBracket : WChar := 93

def passwordMask : UnicodeString := wstr "***"

/-- A user in the host name goes to the user name. -/
def setHostName (value : UnicodeString) (session : SessionData) : SessionData :=
  if session.hostName = value then session
  else
    let p := lastDelimiter [atSign] value
    if p > 0 then { session with userName := value.take (p - 1), hostName := value.drop p }
    else { session with hostName := value }

/-- Sets the host name, and gives what is left for the port. -/
def parseHost (t : TextApi) (hostInfo : UnicodeString) (session : SessionData) :
    SessionData × UnicodeString :=
  let p := pos [closeBracket] hostInfo
  if hostInfo.length ≥ 2 ∧ hostInfo.head? = some openBracket ∧ p > 0 then
    let rest := hostInfo.drop p
    (setHostName ((hostInfo.drop 1).take (p - 2)) session,
      if rest.head? = some colon then rest.drop 1 else rest)
  else
    let (host, rest) := cutToChar hostInfo colon true
    (setHostName (t.decodeUrlChars host) session, rest)

/-- Only the comparison of the whole name ignores the case. -/
def isDomainOrSubdomain (t : TextApi) (fullDomain domain : UnicodeString) : Bool :=
  t.sameText fullDomain domain ||
    (46 :: domain).isSuffixOf fullDomain

def cloudDomains : List UnicodeString :=
  [wstr "s3.amazonaws.com", wstr "digitaloceanspaces.com", wstr "storage.googleapis.com",
   wstr "r2.cloudflarestorage.com"]

/-- Sets the port, and gives the protocol, which is S3 for some WebDAV hosts. -/
def parsePort (t : TextApi) (protocol : Option ProtocolRow) (rest : UnicodeString)
    (session : SessionData) : SessionData × Option ProtocolRow :=
  if rest ≠ [] then
    let port := strToIntDef (t.decodeUrlChars rest) (-1)
    (if port > 0 ∧ port ≤ 65535 then { session with portNumber := port } else session, protocol)
  else
    match protocol with
    | none => (session, none)
    | some row =>
      let row :=
        if row.fsProtocol = .webDav ∧ cloudDomains.any (isDomainOrSubdomain t session.hostName) then
          { row with fsProtocol := .s3 }
        else row
      ({ session with portNumber := row.defaultPort }, some row)

/-- Parameters separated by semicolons, each a name and a value. -/
def cutParams : Nat → UnicodeString → List (UnicodeString × UnicodeString)
  | 0, _ => []
  | _ + 1, [] => []
  | fuel + 1, params =>
    let (param, rest) := cutToChar params semicolon false
    cutToChar param 61 false :: cutParams fuel rest

/-- One parameter of the connection: the host key, the name, or a raw setting,
which is put to those before. -/
def connectionParam (t : TextApi)
    (s : SessionData × List (UnicodeString × UnicodeString))
    (param : UnicodeString × UnicodeString) :
    SessionData × List (UnicodeString × UnicodeString) :=
  if t.sameText param.1 (wstr "fingerprint") then
    ({ s.1 with hostKey := t.decodeUrlChars param.2 }, s.2)
  else if startsText (wstr "x-") param.1 then
    let name := t.decodeUrlChars (param.1.drop 2)
    let value := t.decodeUrlChars param.2
    if t.sameText name (wstr "Name") then ({ s.1 with name := value }, s.2)
    else (s.1, s.2 ++ [(name, value)])
  else s

def applyConnectionParams (t : Platform) (unsafeAllowed : Bool) (params : UnicodeString)
    (session : SessionData) : SessionData :=
  let (session, rawSettings) :=
    (cutParams params.length params).foldl (connectionParam t.toTextApi) (session, [])
  if rawSettings = [] then session else t.applyRawSettings unsafeAllowed rawSettings session

/-- `EmptyStr` is an empty text, so that nothing is denormalized. -/
def denormalizeString (str : UnicodeString) : UnicodeString := if str = [] then [] else str

def sessionParam (t : TextApi) (session : SessionData) (param : UnicodeString × UnicodeString) :
    SessionData :=
  if t.sameText param.1 (wstr "save") then
    { session with saveOnly := decide (strToIntDef param.2 1 ≠ 0) }
  else session

/-- What stands before the host: the user with the password behind a colon, and
parameters behind a semicolon. -/
structure UserInfo where
  rawUserName : UnicodeString
  hasPassword : Bool
  rawPassword : UnicodeString
  connectionParams : UnicodeString

def splitUserInfo (userInfo : UnicodeString) : UserInfo :=
  let (user, params) := cutToChar userInfo semicolon false
  let (rawUserName, rawPassword) := cutToChar user colon false
  ⟨rawUserName, user.contains colon, rawPassword, params⟩

/-- The URL at its first slash, where the part before is split at its last `@`. -/
structure AdHocUrl where
  userInfo : UnicodeString
  hostInfo : UnicodeString
  path : UnicodeString

def splitAdHoc (url : UnicodeString) : AdHocUrl :=
  let pSlash := match pos [slash] url with
    | 0 => url.length + 1
    | p + 1 => p + 1
  let connectInfo := url.take (pSlash - 1)
  let p := lastDelimiter [atSign] connectInfo
  if p > 0 then ⟨connectInfo.take (p - 1), connectInfo.drop p, url.drop (pSlash - 1)⟩
  else ⟨[], connectInfo, url.drop (pSlash - 1)⟩

/-- User and host as they are shown. -/
def shownHost (rawUserName : UnicodeString) (hasPassword : Bool) (host : UnicodeString) :
    UnicodeString :=
  rawUserName ++ ((if hasPassword then colon :: passwordMask else []) ++
    ((if rawUserName ≠ [] ∨ hasPassword = true then [atSign] else []) ++ host))

/-- The text shown for a URL that names no site. -/
def adHocMask (url : UnicodeString) : UnicodeString :=
  let u := splitAdHoc url
  let info := splitUserInfo u.userInfo
  shownHost info.rawUserName info.hasPassword u.hostInfo ++ (cutToChar u.path semicolon false).1

/-- The session of a URL that names no site, its protocol and its directory. -/
def parseAdHoc (t : Platform) (unsafeAllowed : Bool) (protocol : Option ProtocolRow)
    (url : UnicodeString) (session : SessionData) :
    SessionData × Option ProtocolRow × UnicodeString :=
  let u := splitAdHoc url
  let (session, rest) := parseHost t.toTextApi u.hostInfo session
  let (session, protocol) := parsePort t.toTextApi protocol rest session
  let session := match protocol with
    | some row => { session with ftps := row.ftps }
    | none => session
  let info := splitUserInfo u.userInfo
  let session := applyConnectionParams t unsafeAllowed info.connectionParams session
  let password := t.decodeUrlChars info.rawPassword
  let session := { session with
    userName := t.decodeUrlChars info.rawUserName,
    password := if info.hasPassword then denormalizeString password else password }
  let (directory, params) := cutToChar u.path semicolon false
  ((cutParams params.length params).foldl (sessionParam t.toTextApi) session, protocol, directory)

/-! ## The parser -/

structure ParseResult where
  session : SessionData
  /-- the stored site that was used -/
  site : Option StoredSession
  /-- whether it is taken out of the stored sites, as a hidden one is -/
  removed : Bool
  /-- the text taken as directory, before it is split and decoded -/
  directory : UnicodeString
  protocolDefined : Bool
  maskedUrl : UnicodeString
  fileName : Option UnicodeString
  defaultsOnly : Bool

/-- A path that does not end in a slash ends in a file name, if the caller asks
for one. -/
def setDirectory (t : TextApi) (wantsFileName : Bool) (directory : UnicodeString)
    (session : SessionData) : SessionData × Option UnicodeString :=
  let directory := trimRight directory
  if directory ≠ [] ∧ directory ≠ [slash] then
    if directory.getLast? ≠ some slash ∧ wantsFileName = true then
      ({ session with
          remoteDirectory := t.decodeUrlChars (unixExtractFilePath directory),
          requireDirectories := true },
        some (t.decodeUrlChars (unixExtractFileName directory)))
    else
      ({ session with
          remoteDirectory := t.decodeUrlChars directory, requireDirectories := true },
        none)
  else (session, none)

def setProtocol (protocol : Option ProtocolRow) (session : SessionData) : SessionData :=
  match protocol with
  | some row => { session with fsProtocol := row.fsProtocol }
  | none => session

/-- For plain FTP the encryption of the session is switched off at once. -/
def clearFtps (protocol : Option ProtocolRow) (session : SessionData) : SessionData :=
  match protocol with
  | some ⟨_, .ftp, .none, _⟩ => { session with ftps := .none }
  | _ => session

/-- What `ParseUrl` is called with beside the URL. `allSessions` are the stored
sessions of the program, whose default settings a new session starts from. -/
structure ParseCall where
  session : SessionData := {}
  storedSessions : Option StoredSessionList := none
  allSessions : Option StoredSessionList := none
  wantsFileName : Bool := false
  flags : UrlFlags := {}

/-- `http` means WebDAV, unless the session is for S3 and that is to be kept. -/
def ParseCall.httpForWebdav (call : ParseCall) : Bool :=
  !call.flags.preferProtocol || decide (call.session.fsProtocol ≠ .s3)

/-- The session that a URL is put into when it names no site. -/
def ParseCall.start (call : ParseCall) : SessionData :=
  let session := match call.allSessions with
    | some all => all.defaultSettings
    | none => call.session
  { session with requireDirectories := true, name := [] }

/-- The sites that are looked through. -/
def ParseCall.candidates (call : ParseCall) (protocolDefined : Bool) : Option StoredSessionList :=
  if !protocolDefined || call.flags.allowStoredSiteWithProtocol then call.storedSessions else none

/-- There is no result when the end of a site's name is looked for without end, and when a null
pointer is dereferenced. -/
def parseUrl (t : Platform) (call : ParseCall) (aUrl : UnicodeString) : Option ParseResult :=
  let cut := cutProtocol t.toTextApi call.httpForWebdav aUrl
  let protocolDefined := cut.protocol.isSome
  if cut.url = [] then
    let session := match call.storedSessions with
      | some stored => stored.defaultSettings
      | none => clearFtps cut.protocol call.session
    some ⟨setProtocol cut.protocol session, none, false, [], protocolDefined, cut.masked, none, true⟩
  else
    match findStored t.toTextApi (t.decodeUrlChars cut.url) (call.candidates protocolDefined) with
    | none => none
    | some (some site) =>
      match nameEnd t.toTextApi cut.url (nameWithoutFolder site.data.name) with
      | none => none
      | some p =>
        let directory := cut.url.drop p
        let (session, fileName) :=
          setDirectory t.toTextApi call.wantsFileName directory site.data
        some ⟨setProtocol cut.protocol session, some site,
          isHidden site.data.name && !call.flags.parseOnly, directory, protocolDefined,
          cut.masked ++ cut.url, fileName, false⟩
    | some none =>
      let (session, protocol, directory) :=
        parseAdHoc t call.flags.unsafeAllowed cut.protocol cut.url call.start
      let (session, fileName) := setDirectory t.toTextApi call.wantsFileName directory session
      some ⟨setProtocol protocol session, none, false, directory, protocolDefined,
        cut.masked ++ adHocMask cut.url, fileName, false⟩

end NetBox.Session
