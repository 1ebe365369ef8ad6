import NetBox.Session.Rename

/-! # The settings of a session

The fields of `TSessionData` by the type of their values, and the lists of
properties that SessionData.cpp keeps as macros. Numbers stand for the
enumerations as well, which the source reads from and writes to storage as
numbers.
-/
namespace NetBox.Session

open Base.Text Lib

/-- Settings whose value is a text. -/
inductive Str
  | hostName | userName | publicKeyFile | detachedCertificate | localDirectory
  | otherLocalDirectory | remoteDirectory | logicalHostName | gssLibCustom | rekeyData | hostKey
  | returnVar | shell | listingCommand | sourceAddress | protocolFeatures | recycleBinPath
  | postLoginCommands | s3DefaultRegion | s3SessionToken | s3RoleArn | s3RoleSessionName
  | s3Profile | proxyHost | proxyUsername | proxyTelnetCommand | proxyLocalCommand | sftpServer
  | tunnelHostName | tunnelUserName | tunnelPublicKeyFile | tunnelPortFwd | tunnelHostKey
  | ftpAccount | codePage | tlsCertificateFile | winTitle | puttySettings | customParam1
  | customParam2 | note | terminalType | name | link | nameOverride
deriving DecidableEq, Repr

/-- Settings that are on or off. -/
inductive Flag
  | changePassword | tryAgent | agentFwd | changeUsername | compression | ssh2DES
  | sshNoUserAuth | fingerprintScan | updateDirectories | cacheDirectories
  | cacheDirectoryChanges | preserveDirectoryChanges | resolveSymlinks | followDirectorySymlinks
  | special | selected | exitCode1IsError | trimVMSVersions | vmsAllRevisions | clearAliases
  | scp1Compatibility | unsetNationalVars | ignoreLsWarnings | timeDifferenceAuto | tcpNoDelay
  | sshSimple | authKI | authKIPassword | authGSSAPI | authGSSAPIKEX | gssapiFwdTGT
  | deleteToRecycleBin | overwrittenToRecycleBin | s3CredentialsEnv | s3RequesterPays
  | proxyLocalhost | usePosixRename | tunnel | ftpPasvMode | ftpAnyCodeForPwd | sslSessionReuse
  | webDavLiberalEscaping | webDavAuthLegacy | requireDirectories | isWorkspace
  | synchronizeBrowsing | ftpDupFF | ftpUndupFF | ftpAllowEmptyPassword | interactiveTerminal
  | kittyKeyboardProtocol | win32InputMode
deriving DecidableEq, Repr

/-- Settings whose value is a number or one of an enumeration. -/
inductive Number
  | portNumber | fsProtocol | ftps | pingInterval | pingType | timeout | addressFamily
  | rekeyTime | internalEditorEncoding | dstMode | lookupUserGroups | eolType | scpLsFullTime
  | sendBuf | notUtf | s3UrlStyle | s3MaxKeys | proxyMethod | proxyPort | proxyDNS
  | sftpDownloadQueue | sftpUploadQueue | sftpListingQueue | sftpMaxVersion | sftpMaxPacketSize
  | sftpMinPacketSize | sftpRealPath | tunnelPortNumber | tunnelLocalPortNumber
  | ftpForcePasvIp | ftpUseMlsd | ftpPingInterval | ftpPingType | ftpTransferActiveImmediately
  | ftpListAll | ftpHost | ftpWorkFromCwd | codePageAsNumber | ftpProxyLogonType
  | minTlsVersion | maxTlsVersion | completeTlsShutdown | color | terminalWidth | terminalHeight
deriving DecidableEq, Repr

/-- The lists of algorithms. -/
inductive Algo
  | cipher | kex | hostKey | gssLib
deriving DecidableEq, Repr

inductive TSshBug
  | sbHMAC2 | sbDeriveKey2 | sbRSAPad2 | sbPKSessID2 | sbRekey2 | sbMaxPkt2 | sbIgnore2
  | sbOldGex2 | sbWinAdj | sbChanReq
deriving DecidableEq, Repr

inductive TSftpBug
  | sbSymlink | sbSignedTS
deriving DecidableEq, Repr

def sshBugs : List TSshBug :=
  [.sbHMAC2, .sbDeriveKey2, .sbRSAPad2, .sbPKSessID2, .sbRekey2, .sbMaxPkt2, .sbIgnore2,
    .sbOldGex2, .sbWinAdj, .sbChanReq]

def sftpBugs : List TSftpBug := [.sbSymlink, .sbSignedTS]

/-- The names of the algorithms of a list, by their number. -/
def algoNames : Algo → List UnicodeString
  | .cipher => [wstr "WARN", wstr "3des", wstr "blowfish", wstr "aes", wstr "des",
      wstr "arcfour", wstr "chacha20", wstr "aesgcm"]
  | .kex => [wstr "WARN", wstr "dh-group1-sha1", wstr "dh-group14-sha1",
      wstr "dh-group15-sha512", wstr "dh-group16-sha512", wstr "dh-group17-sha512",
      wstr "dh-group18-sha512", wstr "dh-gex-sha1", wstr "rsa", wstr "ecdh",
      wstr "ntru-curve25519", wstr "mlkem-curve25519", wstr "mlkem-nist"]
  | .hostKey => [wstr "WARN", wstr "rsa", wstr "dsa", wstr "ecdsa", wstr "ed25519",
      wstr "ed448"]
  | .gssLib => [wstr "gssapi32", wstr "sspi", wstr "custom"]

/-- The algorithms of a list in the order of its default. -/
def defaultAlgoList : Algo → List Nat
  | .cipher => [3, 6, 7, 1, 0, 4, 2, 5]
  | .kex => [10, 11, 12, 9, 7, 6, 5, 4, 3, 2, 8, 0, 1]
  | .hostKey => [5, 4, 3, 1, 2, 0]
  | .gssLib => [0, 1, 2]

/-- The texts that a setting can have. `SetHostName` and `SetTunnelHostName`, through
which alone the host names are set, cut the text behind its last `@`. -/
def Str.Allows (s : Str) (value : UnicodeString) : Prop :=
  s = .hostName ∨ s = .tunnelHostName → atSign ∉ value

/-- A session. Every list of algorithms has each of its algorithms once. -/
structure TSessionData where
  masterKey : UnicodeString
  str : Str → UnicodeString
  flag : Flag → Bool
  number : Number → Int
  algos : Algo → List Nat
  stored : Secret → List UInt8
  timeDifference : Rat
  bug : TSshBug → Int
  sftpBug : TSftpBug → Int
  str_allowed : ∀ s, Str.Allows s (str s)
  algos_perm : ∀ a, (algos a).Perm (List.range (algoNames a).length)

namespace TSessionData

/-- What the secrets of the session depend on. -/
def secretData (d : TSessionData) : SecretData where
  masterKey := d.masterKey
  hostName := d.str .hostName
  userName := d.str .userName
  proxyHost := d.str .proxyHost
  proxyUsername := d.str .proxyUsername
  tunnelHostName := d.str .tunnelHostName
  tunnelUserName := d.str .tunnelUserName
  publicKeyFile := d.str .publicKeyFile
  tunnelPublicKeyFile := d.str .tunnelPublicKeyFile
  stored := d.stored

/-- `GetCipherList`, `GetKexList`, `GetHostKeyList` and `GetGssLibList`. -/
def getAlgoList (d : TSessionData) (a : Algo) : UnicodeString :=
  List.intercalate (wstr ",") ((d.algos a).map fun i => (algoNames a).getD i [])

def ltAnonymous : Int := 0
def ltNormal : Int := 1
def anonymousUserName : UnicodeString := wstr "anonymous"

/-- The login type is not a field of its own. -/
def getLoginType (r : Utf8Reader) (d : TSessionData) : Int :=
  if d.str .userName = anonymousUserName ∧ getPassword r d.secretData = [] then ltAnonymous
  else ltNormal

end TSessionData

/-- A setting as the properties name it. -/
inductive Setting
  | str (s : Str)
  | flag (f : Flag)
  | number (n : Number)
  | algo (a : Algo)
  | secret (k : Secret)
  | timeDifference
  | bug (b : TSshBug)
  | sftpBug (b : TSftpBug)
  | loginType
deriving DecidableEq, Repr

/-- What a setting has for a value. -/
abbrev Setting.Value : Setting → Type
  | .str _ => UnicodeString
  | .flag _ => Bool
  | .number _ => Int
  | .algo _ => UnicodeString
  | .secret _ => UnicodeString
  | .timeDifference => Rat
  | .bug _ => Int
  | .sftpBug _ => Int
  | .loginType => Int

instance : (s : Setting) → DecidableEq s.Value
  | .str _ | .algo _ | .secret _ => inferInstanceAs (DecidableEq (List WChar))
  | .flag _ => instDecidableEqBool
  | .number _ | .bug _ | .sftpBug _ | .loginType => Int.instDecidableEq
  | .timeDifference => instDecidableEqRat

/-- The value of a setting. Texts are compared as C strings, so that nothing behind a
U+0000 counts. -/
def TSessionData.get (r : Utf8Reader) (d : TSessionData) : (s : Setting) → s.Value
  | .str s => uptoNul (d.str s)
  | .flag f => d.flag f
  | .number n => d.number n
  | .algo a => d.getAlgoList a
  | .secret k => uptoNul (getSecret r k d.secretData)
  | .timeDifference => d.timeDifference
  | .bug b => d.bug b
  | .sftpBug b => d.sftpBug b
  | .loginType => d.getLoginType r

/-! ## The properties -/

/-- The macros that a list of properties is written with. -/
inductive Macro
  | property | property2 | handler
deriving DecidableEq, Repr

/-- `BASE_PROPERTIES`, up to where its lines end. -/
def baseProperties : List (Macro × Setting) :=
  [(.property, .str .hostName), (.property, .number .portNumber), (.handler, .secret .password),
    (.property, .str .publicKeyFile), (.property2, .str .detachedCertificate),
    (.handler, .secret .passphrase), (.property, .number .fsProtocol), (.property, .number .ftps),
    (.property, .str .localDirectory), (.property2, .str .otherLocalDirectory),
    (.property, .str .remoteDirectory), (.property2, .flag .requireDirectories)]

/-- `ADVANCED_PROPERTIES`. -/
def advancedProperties : List (Macro × Setting) :=
  [(.handler, .secret .newPassword), (.property, .flag .changePassword),
    (.property, .number .pingInterval), (.property, .number .pingType),
    (.property, .number .timeout), (.property, .flag .tryAgent), (.property, .flag .agentFwd),
    (.property, .str .logicalHostName), (.property, .flag .changeUsername),
    (.property, .flag .compression), (.property, .flag .ssh2DES), (.property, .flag .sshNoUserAuth),
    (.property, .algo .cipher), (.property, .algo .kex), (.property, .algo .hostKey),
    (.property, .algo .gssLib), (.property, .str .gssLibCustom), (.property, .number .addressFamily),
    (.property, .str .rekeyData), (.property, .number .rekeyTime), (.property, .str .hostKey),
    (.property, .flag .fingerprintScan), (.property, .number .internalEditorEncoding),
    (.property, .flag .updateDirectories), (.property, .flag .cacheDirectories),
    (.property, .flag .cacheDirectoryChanges), (.property, .flag .preserveDirectoryChanges),
    (.property, .flag .resolveSymlinks), (.property, .flag .followDirectorySymlinks),
    (.property, .number .dstMode), (.property, .flag .special), (.property, .flag .selected),
    (.property, .str .returnVar), (.property, .flag .exitCode1IsError),
    (.property, .number .lookupUserGroups), (.property, .number .eolType),
    (.property, .flag .trimVMSVersions), (.property2, .flag .vmsAllRevisions),
    (.property, .str .shell), (.property, .flag .clearAliases),
    (.property, .flag .scp1Compatibility), (.property, .flag .unsetNationalVars),
    (.property, .str .listingCommand), (.property, .flag .ignoreLsWarnings),
    (.property, .number .scpLsFullTime), (.property, .timeDifference),
    (.property, .flag .timeDifferenceAuto), (.property, .flag .tcpNoDelay),
    (.property, .number .sendBuf), (.property2, .str .sourceAddress),
    (.property2, .str .protocolFeatures), (.property, .flag .sshSimple), (.property, .flag .authKI),
    (.property, .flag .authKIPassword), (.property, .flag .authGSSAPI),
    (.property2, .flag .authGSSAPIKEX), (.property, .flag .gssapiFwdTGT),
    (.property, .flag .deleteToRecycleBin), (.property, .flag .overwrittenToRecycleBin),
    (.property, .str .recycleBinPath), (.property, .number .notUtf),
    (.property, .str .postLoginCommands), (.property2, .str .s3DefaultRegion),
    (.property2, .str .s3SessionToken), (.property2, .str .s3RoleArn),
    (.property2, .str .s3RoleSessionName), (.property2, .str .s3Profile),
    (.property2, .number .s3UrlStyle), (.property2, .number .s3MaxKeys),
    (.property2, .flag .s3CredentialsEnv), (.property2, .flag .s3RequesterPays),
    (.property, .number .proxyMethod), (.property, .str .proxyHost), (.property, .number .proxyPort),
    (.property, .str .proxyUsername), (.handler, .secret .proxyPassword),
    (.property, .str .proxyTelnetCommand), (.property, .str .proxyLocalCommand),
    (.property, .number .proxyDNS), (.property, .flag .proxyLocalhost),
    (.property, .str .sftpServer), (.property, .number .sftpDownloadQueue),
    (.property, .number .sftpUploadQueue), (.property, .number .sftpListingQueue),
    (.property, .number .sftpMaxVersion), (.property, .number .sftpMaxPacketSize),
    (.property2, .number .sftpRealPath), (.property2, .flag .usePosixRename),
    (.property, .flag .tunnel), (.property, .str .tunnelHostName),
    (.property, .number .tunnelPortNumber), (.property, .str .tunnelUserName),
    (.handler, .secret .tunnelPassword), (.property, .str .tunnelPublicKeyFile),
    (.handler, .secret .tunnelPassphrase), (.property, .number .tunnelLocalPortNumber),
    (.property, .str .tunnelPortFwd), (.property, .str .tunnelHostKey),
    (.property, .flag .ftpPasvMode), (.property, .number .ftpForcePasvIp),
    (.property, .number .ftpUseMlsd), (.property, .str .ftpAccount),
    (.property, .number .ftpPingInterval), (.property, .number .ftpPingType),
    (.property, .number .ftpTransferActiveImmediately), (.property, .number .ftpListAll),
    (.property, .number .ftpHost), (.property2, .number .ftpWorkFromCwd),
    (.property2, .flag .ftpAnyCodeForPwd), (.property2, .str .codePage),
    (.property2, .number .codePageAsNumber), (.property, .flag .sslSessionReuse),
    (.property, .str .tlsCertificateFile), (.property, .number .ftpProxyLogonType),
    (.property, .number .minTlsVersion), (.property, .number .maxTlsVersion),
    (.property2, .number .completeTlsShutdown), (.property, .str .winTitle),
    (.handler, .secret .encryptKey), (.property2, .flag .webDavLiberalEscaping),
    (.property2, .flag .webDavAuthLegacy), (.property2, .str .puttySettings),
    (.property, .str .customParam1), (.property, .str .customParam2)]

/-! ## The factory defaults -/

def defaultStr (codePage : UnicodeString) : Str → UnicodeString
  | .proxyHost => wstr "proxy"
  | .proxyTelnetCommand => wstr "connect %host %port\\n"
  | .rekeyData => wstr "1G"
  | .listingCommand => wstr "ls -la"
  | .codePage => codePage
  | .terminalType => wstr "xterm"
  | _ => []

def defaultFlag : Flag → Bool
  | .tryAgent | .authKI | .authKIPassword | .tcpNoDelay | .updateDirectories | .resolveSymlinks
  | .followDirectorySymlinks | .clearAliases | .unsetNationalVars | .ignoreLsWarnings
  | .timeDifferenceAuto | .ftpPasvMode | .sslSessionReuse => true
  | _ => false

def asOn : Int := 0
def asAuto : Int := 2

def defaultNumber : Number → Int
  | .portNumber | .tunnelPortNumber => 22
  | .fsProtocol => 1
  | .pingInterval | .ftpPingInterval => 30
  | .timeout => 15
  | .rekeyTime => 60
  | .internalEditorEncoding | .sftpMaxVersion => -1
  | .dstMode => 1
  | .proxyPort | .terminalWidth => 80
  | .terminalHeight => 24
  | .sftpDownloadQueue => 32
  | .sftpUploadQueue => 64
  | .sftpListingQueue | .ftpPingType => 2
  | .minTlsVersion => 12
  | .maxTlsVersion => 13
  | .lookupUserGroups | .notUtf => asOn
  | .scpLsFullTime | .s3MaxKeys | .proxyDNS | .sftpRealPath | .ftpForcePasvIp | .ftpUseMlsd
  | .ftpTransferActiveImmediately | .ftpListAll | .ftpHost | .ftpWorkFromCwd
  | .completeTlsShutdown => asAuto
  | _ => 0

theorem defaultStr_allowed (codePage : UnicodeString) (s : Str) :
    s.Allows (defaultStr codePage s) := by
  rintro (rfl | rfl)
  · exact List.not_mem_nil
  · exact List.not_mem_nil

/-- A new session after `Default`. The name of the code page UTF-8 comes from the
operating system. -/
def factoryDefaults (codePage : UnicodeString) : TSessionData where
  masterKey := []
  str := defaultStr codePage
  flag := defaultFlag
  number := defaultNumber
  algos := defaultAlgoList
  stored _ := []
  timeDifference := 0
  bug _ := asAuto
  sftpBug _ := asAuto
  str_allowed := defaultStr_allowed codePage
  algos_perm a := by cases a <;> decide

/-! ## The session of a URL

`ParseUrl` is about a record with the settings that a URL can give, and with the
password as a text. It shows what a session has for them, also after `SetHostName`.
-/

def FSProtocol.number : FSProtocol → Int
  | .scpOnly => 0
  | .sftp => 1
  | .sftpOnly => 2
  | .ftp => 5
  | .webDav => 6
  | .s3 => 7

def Ftps.number : Ftps → Int
  | .none => 0
  | .implicit => 1
  | .explicitSsl => 2
  | .explicitTls => 3

structure TSessionData.Shows (r : Utf8Reader) (d : TSessionData) (session : SessionData) :
    Prop where
  name : session.name = d.str .name
  fsProtocol : session.fsProtocol.number = d.number .fsProtocol
  ftps : session.ftps.number = d.number .ftps
  hostName : session.hostName = d.str .hostName
  portNumber : session.portNumber = d.number .portNumber
  userName : session.userName = d.str .userName
  password : session.password = getPassword r d.secretData
  remoteDirectory : session.remoteDirectory = d.str .remoteDirectory
  hostKey : session.hostKey = d.str .hostKey
  requireDirectories : session.requireDirectories = d.flag .requireDirectories

variable {value : UnicodeString}

theorem not_mem_drop_lastDelimiter (value : UnicodeString) :
    atSign ∉ value.drop (lastDelimiter [atSign] value) := by
  by_cases hmem : atSign ∈ value
  · obtain ⟨user, host, rfl, hhost⟩ := exists_last hmem
    rw [lastDelimiter_last user hhost, show user ++ atSign :: host = (user ++ [atSign]) ++ host by
      simp, List.drop_left' (by simp)]
    exact hhost
  · rw [lastDelimiter_absent hmem]
    exact hmem

/-- `SetHostName` changes the stored secrets, and gives the names that the record gets. -/
theorem setHostName_names (r : Utf8Reader) (noise : Secret → Nat → Nat) (s : SecretData)
    (session : SessionData) (hhost : session.hostName = s.hostName)
    (huser : session.userName = s.userName) :
    s.setHostName r noise value =
      { s with
        hostName := (setHostName value session).hostName
        userName := (setHostName value session).userName
        stored := (s.setHostName r noise value).stored } := by
  rw [SecretData.setHostName, setHostName, hhost]
  by_cases hsame : s.hostName = value
  · rw [if_neg (not_not_intro hsame), if_pos hsame, hhost, huser]
  · rw [if_pos hsame, if_neg hsame]
    dsimp only [setSecret, putStored, SecretData.setNames]
    split
    · rw [SecretData.setUserName]
      split
      · rfl
      · next h => rw [not_not.mp h]
    · rw [huser]

theorem setHostName_allowed {session : SessionData} (h : atSign ∉ session.hostName) :
    atSign ∉ (setHostName value session).hostName := by
  have hrest := not_mem_drop_lastDelimiter value
  rw [setHostName]
  dsimp only
  split
  · exact h
  · split
    · exact hrest
    · next hnone => rwa [Nat.eq_zero_of_not_pos hnone] at hrest

namespace TSessionData

variable (r : Utf8Reader) (noise : Secret → Nat → Nat) (d : TSessionData)

/-- `SetHostName` of a whole session. -/
def setHostName (value : UnicodeString) : TSessionData :=
  let s := d.secretData.setHostName r noise value
  { d with
    str := fun
      | .hostName => s.hostName
      | .userName => s.userName
      | other => d.str other
    stored := s.stored
    str_allowed := by
      rintro _ (rfl | rfl)
      · show atSign ∉ (d.secretData.setHostName r noise value).hostName
        rw [setHostName_names r noise d.secretData
          { hostName := d.str .hostName, userName := d.str .userName } rfl rfl]
        exact setHostName_allowed (d.str_allowed _ (.inl rfl))
      · exact d.str_allowed _ (.inr rfl) }

/-- The record goes on showing the session, if the password fits the key that the new
names make. -/
theorem shows_setHostName {d : TSessionData} {session : SessionData} (h : d.Shows r session)
    (hfits : Fits session.password
      (sessionPasswordEncryptionKey (d.secretData.setNames value))) :
    (d.setHostName r noise value).Shows r (Session.setHostName value session) := by
  have hnames := @setHostName_names value r noise d.secretData session h.hostName h.userName
  have hsecrets : (d.setHostName r noise value).secretData =
      d.secretData.setHostName r noise value := by
    show { d.secretData with
      hostName := (d.secretData.setHostName r noise value).hostName
      userName := (d.secretData.setHostName r noise value).userName
      stored := (d.secretData.setHostName r noise value).stored } = _
    rw [hnames]
  have hpassword : getPassword r (d.secretData.setHostName r noise value) = session.password := by
    rw [h.password] at hfits ⊢
    by_cases hsame : d.secretData.hostName = value
    · rw [SecretData.setHostName, if_neg (not_not_intro hsame)]
    · have hagain := (getSecret_setHostName r noise value hsame).2.2 .password
        (by simp [Rename.recrypted])
      exact hagain.trans (decryptPassword_of_fits r _ (wellFormed_getSecret r .password _) hfits)
  have hsession : Session.setHostName value session =
      { session with
        hostName := (d.secretData.setHostName r noise value).hostName
        userName := (d.secretData.setHostName r noise value).userName } := by
    rw [hnames, Session.setHostName]
    dsimp only
    split
    · rfl
    · split <;> rfl
  rw [hsession]
  exact ⟨h.name, h.fsProtocol, h.ftps, rfl, h.portNumber, rfl, (hsecrets ▸ hpassword).symm,
    h.remoteDirectory, h.hostKey, h.requireDirectories⟩

end TSessionData

end NetBox.Session
