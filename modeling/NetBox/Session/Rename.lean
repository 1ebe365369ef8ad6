import NetBox.Session.Secrets
import NetBox.Lib.Run

/-! # Secrets and the names they are encrypted under

Without a master key the session password, the new password and the encryption
key are encrypted under the user name and the host name. `SetHostName` encrypts
two of them again under the new names, but puts the new password back as it was.
`SetUserName` encrypts none of them again: those lines are compiled for another
compiler only.
-/
namespace NetBox.Session

open Base.Text Lib Lib.Run List

namespace SecretData

def setUserName (value : UnicodeString) (s : SecretData) : SecretData :=
  if s.userName ≠ value then { s with userName := value } else s

/-- The names in the value that is given to `SetHostName`. -/
def setNames (aValue : UnicodeString) (s : SecretData) : SecretData :=
  let p := lastDelimiter [atSign] aValue
  if 0 < p then { s.setUserName (aValue.take (p - 1)) with hostName := aValue.drop p }
  else { s with hostName := aValue }

def setHostName (r : Utf8Reader) (noise : Secret → Nat → Nat) (aValue : UnicodeString)
    (s : SecretData) : SecretData :=
  if s.hostName ≠ aValue then
    let xPassword := getPassword r s
    -- the property of the new password reads the field, not the text
    let xNewPassword := s.stored .newPassword
    let xEncryptKey := getEncryptKey r s
    let s := s.setNames aValue
    let s := setSecret (noise .password) .password xPassword s
    let s := putStored .newPassword xNewPassword s
    setSecret (noise .encryptKey) .encryptKey xEncryptKey s
  else s

end SecretData

inductive Rename
  | userName (value : UnicodeString)
  | hostName (value : UnicodeString)

/-- One change of a name, with the random numbers it draws. -/
def renameStep (r : Utf8Reader) (s : SecretData) (a : Rename × (Secret → Nat → Nat)) :
    Option SecretData :=
  match a.1 with
  | .userName value => some (s.setUserName value)
  | .hostName value => some (s.setHostName r a.2 value)

/-- The session with its new names and the secrets as they were. -/
def renamed (s : SecretData) : Rename → SecretData
  | .userName value => s.setUserName value
  | .hostName value => s.setNames value

/-- The value is the one that the session has already. -/
def Rename.isSame (s : SecretData) : Rename → Prop
  | .userName value => s.userName = value
  | .hostName value => s.hostName = value

/-- The secrets that the change leaves encrypted under the old names. -/
def Rename.left : Rename → List Secret
  | .userName _ => [.password, .newPassword, .encryptKey]
  | .hostName _ => [.newPassword]

/-- The secrets that the change encrypts again. -/
def Rename.recrypted : Rename → List Secret
  | .userName _ => []
  | .hostName _ => [.password, .encryptKey]

/-- The change gives the name the session has; or what it leaves encrypted under
the old names is not there, or the names still make the same key, and what it
encrypts again fits the new key. -/
def SafeRename (r : Utf8Reader) (s : SecretData) (a : Rename × (Secret → Nat → Nat)) : Prop :=
  a.1.isSame s ∨
    ((sessionPasswordEncryptionKey (renamed s a.1) = sessionPasswordEncryptionKey s ∨
        ∀ k ∈ a.1.left, s.stored k = []) ∧
      ∀ k ∈ a.1.recrypted, Fits (getSecret r k s) (sessionPasswordEncryptionKey (renamed s a.1)))

/-- The three secrets that the names are the key of. -/
def sessionSecrets : List Secret := [.password, .newPassword, .encryptKey]

def SameSecrets (r : Utf8Reader) (s t : SecretData) : Prop :=
  ∀ k ∈ sessionSecrets, getSecret r k t = getSecret r k s

/-! ## One change -/

theorem key_sessionSecret {k : Secret} (hk : k ∈ sessionSecrets) (s : SecretData) :
    k.key s = sessionPasswordEncryptionKey s := by
  cases k with
  | password => rfl
  | newPassword => rfl
  | encryptKey => rfl
  | _ => exact absurd hk (by decide)

theorem wellFormed_getSecret (r : Utf8Reader) (k : Secret) (s : SecretData) :
    Utf8.WellFormed (getSecret r k s) := by
  rw [getSecret, decryptPassword]
  split
  · exact ⟨[], rfl⟩
  · exact r.wellFormed_toText _

theorem stored_renamed (s : SecretData) (c : Rename) : (renamed s c).stored = s.stored := by
  have huser : ∀ value, (s.setUserName value).stored = s.stored := by
    intro value
    rw [SecretData.setUserName]
    split
    · rfl
    · rfl
  cases c with
  | userName value => exact huser value
  | hostName value =>
    rw [renamed, SecretData.setNames]
    dsimp only
    split
    · exact huser _
    · rfl

/-- A secret that stays as it is reads the same when it is not there, or when its
key is the same. -/
theorem getSecret_left {r : Utf8Reader} {s t : SecretData} {k : Secret}
    (hk : k ∈ sessionSecrets) (hstored : t.stored k = s.stored k)
    (h : sessionPasswordEncryptionKey t = sessionPasswordEncryptionKey s ∨ s.stored k = []) :
    getSecret r k t = getSecret r k s := by
  rw [getSecret, getSecret, key_sessionSecret hk, key_sessionSecret hk, hstored]
  rcases h with h | h
  · rw [h]
  · rw [h]
    rfl

theorem sessionKey_putStored (k : Secret) (bytes : List UInt8) (s : SecretData) :
    sessionPasswordEncryptionKey (putStored k bytes s) = sessionPasswordEncryptionKey s := rfl

/-- What `SetHostName` makes of each of the three secrets. -/
theorem getSecret_setHostName (r : Utf8Reader) (noise : Secret → Nat → Nat)
    (value : UnicodeString) {s : SecretData} (h : s.hostName ≠ value) :
    let t := s.setHostName r noise value
    let key := sessionPasswordEncryptionKey (s.setNames value)
    sessionPasswordEncryptionKey t = key ∧ t.stored .newPassword = s.stored .newPassword ∧
      ∀ k ∈ (Rename.hostName value).recrypted, getSecret r k t =
        decryptPassword r (encryptPassword (noise k) (getSecret r k s) key) key := by
  rw [SecretData.setHostName, if_pos h]
  dsimp only [setSecret]
  refine ⟨?_, ?_, fun k hk => ?_⟩
  · rw [sessionKey_putStored, sessionKey_putStored, sessionKey_putStored]
  · rw [stored_putStored, stored_putStored, if_neg (by decide), if_pos rfl]
  · simp only [Rename.recrypted, mem_cons, not_mem_nil, or_false] at hk
    rcases hk with rfl | rfl
    · rw [getSecret_putStored, getSecret_putStored, getSecret_putStored, if_neg (by decide),
        if_neg (by decide), if_pos rfl]
      rfl
    · rw [getSecret_putStored, if_pos rfl, key_putStored, key_putStored]
      rfl

theorem sameSecrets_step {r : Utf8Reader} {s t : SecretData}
    {a : Rename × (Secret → Nat → Nat)} (hsafe : SafeRename r s a)
    (hstep : renameStep r s a = some t) : SameSecrets r s t := by
  intro k hk
  obtain ⟨c, noise⟩ := a
  cases c with
  | userName value =>
    obtain rfl := Option.some.inj hstep
    refine getSecret_left hk (congrFun (stored_renamed s (.userName value)) k) ?_
    rcases hsafe with hsame | ⟨hleft, -⟩
    · have hsame : s.userName = value := hsame
      rw [SecretData.setUserName, if_neg (not_not_intro hsame)]
      exact .inl rfl
    · exact hleft.imp_right fun h => h k hk
  | hostName value =>
    obtain rfl := Option.some.inj hstep
    by_cases hsame : s.hostName = value
    · rw [SecretData.setHostName, if_neg (not_not_intro hsame)]
    obtain ⟨hkey, hnew, hrecrypted⟩ := getSecret_setHostName r noise value hsame
    obtain ⟨hleft, hfits⟩ := hsafe.resolve_left hsame
    have hagain : ∀ k ∈ (Rename.hostName value).recrypted,
        getSecret r k (s.setHostName r noise value) = getSecret r k s := by
      intro k hk
      rw [hrecrypted k hk]
      exact decryptPassword_of_fits r _ (wellFormed_getSecret r k s) (hfits k hk)
    simp only [sessionSecrets, mem_cons, not_mem_nil, or_false] at hk
    rcases hk with rfl | rfl | rfl
    · exact hagain _ (by simp [Rename.recrypted])
    · refine getSecret_left (by decide) hnew ?_
      exact hleft.imp hkey.trans fun h => h _ (by simp [Rename.left])
    · exact hagain _ (by simp [Rename.recrypted])

/-! ## Any number of changes -/

/-- The secrets survive renaming as long as every change of a name is safe for
the session it is made to. -/
theorem secrets_survive (r : Utf8Reader) (s t : SecretData)
    (h : Reaches (renameStep r) (SafeRename r) s t) :
    getPassword r t = getPassword r s ∧ getNewPassword r t = getNewPassword r s ∧
      getEncryptKey r t = getEncryptKey r s := by
  have hsame : SameSecrets r s t :=
    h.invariant (P := SameSecrets r s) (fun _ _ => rfl) fun t a u ht hsafe hstep k hk =>
      (sameSecrets_step hsafe hstep k hk).trans (ht k hk)
  exact ⟨hsame _ (by decide), hsame _ (by decide), hsame _ (by decide)⟩

theorem getSecret_oneSecret {k : Secret} {value : UnicodeString}
    (hw : Utf8.WellFormed value)
    (hfits : Fits value (k.key (oneSecret k value))) :
    getSecret utf8Reader k (oneSecret k value) = value := by
  rw [oneSecret, setSecret, key_putStored] at hfits
  rw [oneSecret, setSecret, getSecret_putStored, if_pos rfl]
  exact decryptPassword_of_fits _ _ hw hfits

theorem wellFormed_secret : Utf8.WellFormed (wstr "secret") :=
  ⟨['s', 'e', 'c', 'r', 'e', 't'], by decide⟩

theorem secrets_survive_new_host :
    let s := oneSecret .password (wstr "secret")
    let a : Rename × (Secret → Nat → Nat) := (.hostName (wstr "joe@other"), fun _ _ => 0)
    SafeRename utf8Reader s a ∧
      getPassword utf8Reader (s.setHostName utf8Reader a.2 (wstr "joe@other")) =
        getPassword utf8Reader s := by
  have hread : getSecret utf8Reader .password (oneSecret .password (wstr "secret")) =
      wstr "secret" := getSecret_oneSecret wellFormed_secret (by decide)
  have hempty : getSecret utf8Reader .encryptKey (oneSecret .password (wstr "secret")) = [] := by
    rw [oneSecret, setSecret, getSecret_putStored, if_neg (by decide)]
    rfl
  have hsafe : SafeRename utf8Reader (oneSecret .password (wstr "secret"))
      (.hostName (wstr "joe@other"), fun _ _ => 0) := by
    refine .inr ⟨.inr fun k hk => ?_, fun k hk => ?_⟩
    · obtain rfl := List.mem_singleton.mp hk
      exact (stored_oneSecret (by decide) _).mpr (by decide)
    · simp only [Rename.recrypted, List.mem_cons, List.not_mem_nil, or_false] at hk
      rcases hk with rfl | rfl
      · rw [hread]
        decide
      · rw [hempty]
        decide
  exact ⟨hsafe, (secrets_survive utf8Reader (oneSecret .password (wstr "secret")) _
    (.tail .refl hsafe rfl)).1⟩

/-- Another user name loses the password, another host name the new password. -/
theorem secrets_lost :
    getPassword utf8Reader (oneSecret .password (wstr "secret")) = wstr "secret" ∧
      getPassword utf8Reader
        ((oneSecret .password (wstr "secret")).setUserName (wstr "joe")) = [] ∧
      getNewPassword utf8Reader (oneSecret .newPassword (wstr "secret")) = wstr "secret" ∧
      getNewPassword utf8Reader ((oneSecret .newPassword (wstr "secret")).setHostName utf8Reader
        (fun _ _ => 0) (wstr "other")) = [] := by
  have hlost : ∀ key : UnicodeString,
      unlock (Utf8.encode key) (Utf8.encode (wstr "userhostsecret")) = [] →
      decryptPassword utf8Reader (encryptPassword (fun _ => 0) (wstr "secret") (wstr "userhost"))
        key = [] := by
    intro key h
    rw [decryptPassword_encrypted _ _ (by decide)]
    have htext : (cstr (Utf8.encode (wstr "userhost") ++ Utf8.encode (wstr "secret"))) =
        Utf8.encode (wstr "userhostsecret") := by decide
    rw [htext, List.take_of_length_le (by decide), h, toText_nil]
  refine ⟨getSecret_oneSecret wellFormed_secret (by decide), hlost (wstr "joehost") (by decide),
    getSecret_oneSecret wellFormed_secret (by decide), ?_⟩
  obtain ⟨hkey, hstored, -⟩ := getSecret_setHostName utf8Reader (fun _ _ => 0)
    (wstr "other") (s := oneSecret .newPassword (wstr "secret")) (by decide)
  rw [getNewPassword, getSecret, hstored, key_sessionSecret (by decide), hkey]
  exact hlost (wstr "userother") (by decide)

end NetBox.Session
