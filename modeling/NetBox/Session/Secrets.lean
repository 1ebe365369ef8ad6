import NetBox.Session.Password
import Mathlib.Logic.Function.Basic

/-! # The secrets of a session

The seven secrets of `TSessionData` with the texts their keys are made of, and
`MaskPasswords`, which is meant to replace every secret that `HasAnyPassword`
counts.
-/
namespace NetBox.Session

open Base.Text Lib List

inductive Secret
  | password | newPassword | proxyPassword | tunnelPassword | encryptKey | passphrase
  | tunnelPassphrase
deriving DecidableEq, Repr

/-- What the secrets of a session depend on. `masterKey` belongs to the
configuration, `stored` are the fields as they are encrypted. -/
structure SecretData where
  masterKey : UnicodeString := []
  hostName : UnicodeString := []
  userName : UnicodeString := []
  proxyHost : UnicodeString := []
  proxyUsername : UnicodeString := []
  tunnelHostName : UnicodeString := []
  tunnelUserName : UnicodeString := []
  publicKeyFile : UnicodeString := []
  tunnelPublicKeyFile : UnicodeString := []
  stored : Secret → List UInt8 := fun _ => []

def sessionPasswordEncryptionKey (s : SecretData) : UnicodeString :=
  if s.masterKey ≠ [] then s.masterKey else plus s.userName s.hostName

/-- The text that a secret is encrypted under. -/
def Secret.key (s : SecretData) : Secret → UnicodeString
  | .password => sessionPasswordEncryptionKey s
  | .newPassword => sessionPasswordEncryptionKey s
  | .proxyPassword => plus s.proxyUsername s.proxyHost
  | .tunnelPassword => plus s.tunnelUserName s.tunnelHostName
  | .encryptKey => sessionPasswordEncryptionKey s
  | .passphrase => s.publicKeyFile
  | .tunnelPassphrase => s.tunnelPublicKeyFile

def getSecret (r : Utf8Reader) (k : Secret) (s : SecretData) : UnicodeString :=
  decryptPassword r (s.stored k) (k.key s)

/-- The field of a secret as it is. -/
def putStored (k : Secret) (bytes : List UInt8) (s : SecretData) : SecretData :=
  { s with stored := Function.update s.stored k bytes }

def setSecret (noise : Nat → Nat) (k : Secret) (value : UnicodeString) (s : SecretData) :
    SecretData :=
  putStored k (encryptPassword noise value (k.key s)) s

def getPassword (r : Utf8Reader) : SecretData → UnicodeString := getSecret r .password
def getNewPassword (r : Utf8Reader) : SecretData → UnicodeString := getSecret r .newPassword
def getEncryptKey (r : Utf8Reader) : SecretData → UnicodeString := getSecret r .encryptKey

/-- Every secret that `HasAnyPassword` looks at, in its order. -/
def countedSecrets : List Secret :=
  [.password, .tunnelPassword, .newPassword, .proxyPassword, .encryptKey, .passphrase,
    .tunnelPassphrase]

def hasAnyPassword (s : SecretData) : Bool := countedSecrets.any fun k => !(s.stored k).isEmpty

/-- One step of `MaskPasswords`. -/
def maskSecret (r : Utf8Reader) (noise : Secret → Nat → Nat) (s : SecretData) (k : Secret) :
    SecretData :=
  if getSecret r k s ≠ [] then setSecret (noise k) k passwordMask s else s

/-- The secrets that `MaskPasswords` looks at, in its order. -/
def maskedSecrets : List Secret :=
  [.password, .newPassword, .proxyPassword, .tunnelPassword, .encryptKey, .passphrase]

/-- The mask is first put into the field of the password as it is. -/
def maskStored (s : SecretData) : SecretData :=
  if s.stored .password ≠ [] then putStored .password [42, 42, 42] s else s

def maskPasswords (r : Utf8Reader) (noise : Secret → Nat → Nat) (s : SecretData) : SecretData :=
  maskedSecrets.foldl (maskSecret r noise) (maskStored s)

/-- The sessions differ in nothing but the values of secrets that are not empty. -/
structure SameButSecrets (a b : SecretData) : Prop where
  masterKey : a.masterKey = b.masterKey
  hostName : a.hostName = b.hostName
  userName : a.userName = b.userName
  proxyHost : a.proxyHost = b.proxyHost
  proxyUsername : a.proxyUsername = b.proxyUsername
  tunnelHostName : a.tunnelHostName = b.tunnelHostName
  tunnelUserName : a.tunnelUserName = b.tunnelUserName
  publicKeyFile : a.publicKeyFile = b.publicKeyFile
  tunnelPublicKeyFile : a.tunnelPublicKeyFile = b.tunnelPublicKeyFile
  empty_iff : ∀ k, a.stored k = [] ↔ b.stored k = []

/-- Every secret of the session that is counted reads as the mask. -/
def Replaced (r : Utf8Reader) (before after : SecretData) : Prop :=
  ∀ k ∈ countedSecrets, before.stored k ≠ [] → getSecret r k after = passwordMask

/-- The masked sessions cannot be told apart by their secrets. -/
def Masked (r : Utf8Reader) (noise noise' : Secret → Nat → Nat) (a b : SecretData) : Prop :=
  (∀ k, getSecret r k (maskPasswords r noise a) = getSecret r k (maskPasswords r noise' b)) ∧
    Replaced r a (maskPasswords r noise a) ∧ Replaced r b (maskPasswords r noise' b)

/-- The mask can be stored under the key of every secret there is, every one but
the password itself can be read, and the passphrase of the tunnel's key is not
there or is the mask already. -/
def Maskable (r : Utf8Reader) (s : SecretData) : Prop :=
  ∀ k, s.stored k ≠ [] →
    if k = .tunnelPassphrase then getSecret r k s = passwordMask
    else Fits passwordMask (k.key s) ∧ (k ≠ .password → getSecret r k s ≠ [])

/-! ## One secret at a time -/

@[simp] theorem key_putStored (k k' : Secret) (bytes : List UInt8) (s : SecretData) :
    k.key (putStored k' bytes s) = k.key s := by cases k <;> rfl

@[simp] theorem stored_putStored (k k' : Secret) (bytes : List UInt8) (s : SecretData) :
    (putStored k' bytes s).stored k = if k = k' then bytes else s.stored k := by
  show Function.update s.stored k' bytes k = _
  rw [Function.update_apply]

theorem getSecret_putStored (r : Utf8Reader) (k k' : Secret) (bytes : List UInt8)
    (s : SecretData) : getSecret r k (putStored k' bytes s) =
      if k = k' then decryptPassword r bytes (k.key s) else getSecret r k s := by
  rw [getSecret, key_putStored, stored_putStored]
  split
  · rfl
  · rfl

theorem wellFormed_passwordMask : Utf8.WellFormed passwordMask :=
  ⟨['*', '*', '*'], by decide⟩

/-- What the mask reads as under a key. -/
def maskUnder (key : UnicodeString) : UnicodeString :=
  if Fits passwordMask key then passwordMask else []

theorem decryptPassword_mask (r : Utf8Reader) (noise : Nat → Nat) (key : UnicodeString) :
    decryptPassword r (encryptPassword noise passwordMask key) key = maskUnder key := by
  rw [maskUnder]
  split
  next h => exact decryptPassword_of_fits r noise wellFormed_passwordMask h
  next h =>
    exact decryptPassword_of_not_fits r noise (by decide) (by decide) (by decide) h

theorem getSecret_maskSecret (r : Utf8Reader) (noise : Secret → Nat → Nat) (s : SecretData)
    (k k' : Secret) : getSecret r k (maskSecret r noise s k') =
      if k = k' ∧ getSecret r k s ≠ [] then maskUnder (k.key s) else getSecret r k s := by
  rw [maskSecret]
  split
  next h =>
    rw [setSecret, getSecret_putStored]
    by_cases hk : k = k'
    · subst hk
      rw [if_pos rfl, if_pos ⟨rfl, h⟩, decryptPassword_mask]
    · rw [if_neg hk, if_neg fun h => hk h.1]
  next h =>
    rw [if_neg]
    rintro ⟨rfl, hne⟩
    exact h hne

@[simp] theorem key_maskSecret (r : Utf8Reader) (noise : Secret → Nat → Nat) (s : SecretData)
    (k k' : Secret) : k.key (maskSecret r noise s k') = k.key s := by
  rw [maskSecret]
  split
  · exact key_putStored _ _ _ _
  · rfl

theorem getSecret_foldl (r : Utf8Reader) (noise : Secret → Nat → Nat) (k : Secret)
    {secrets : List Secret} (hnodup : secrets.Nodup) (s : SecretData) :
    getSecret r k (secrets.foldl (maskSecret r noise) s) =
      if k ∈ secrets ∧ getSecret r k s ≠ [] then maskUnder (k.key s) else getSecret r k s := by
  induction secrets generalizing s with
  | nil => simp
  | cons k' secrets ih =>
    rw [nodup_cons] at hnodup
    rw [foldl_cons, ih hnodup.2, getSecret_maskSecret, key_maskSecret]
    by_cases hk : k = k'
    · subst hk
      rw [if_neg fun h => hnodup.1 h.1]
      simp
    · simp [hk]

theorem decryptChars_short {str : List UInt8} (h : str.length < 2) (n : Nat) :
    decryptChars n str = List.replicate n 0 := by
  have hnext : simpleDecryptNextChar str = (0, str) := by
    match str, h with
    | [], _ => rfl
    | [_], _ => rfl
  induction n with
  | zero => rfl
  | succ n ih => rw [decryptChars, hnext, ih, replicate_succ]

theorem replicate_zero_encoded (n : Nat) : List.replicate n (0 : UInt8) =
    (List.replicate n (Char.ofNat 0)).flatMap String.utf8EncodeChar := by
  have hzero : String.utf8EncodeChar (Char.ofNat 0) = [0] := by decide
  induction n with
  | zero => rfl
  | succ n ih =>
    rw [replicate_succ, replicate_succ, flatMap_cons, ← ih, hzero]
    rfl

/-- The mask taken for an encrypted password is read as a text that is not empty. -/
theorem decryptPassword_stars (r : Utf8Reader) (key : UnicodeString) :
    decryptPassword r [42, 42, 42] key ≠ [] := by
  have hbytes : decryptBytes [42, 42, 42] (Utf8.encode key) = List.replicate 179 0 := by
    have hflag : simpleDecryptNextChar [42, 42, 42] = (179, [42]) := by decide
    have hlength : decryptLength 179 [42] = (some 179, [42]) := by decide
    rw [decryptBytes, hflag]
    dsimp only
    rw [hlength]
    dsimp only
    rw [if_neg (by decide), decryptChars_short (by decide)]
  rw [decryptPassword, if_neg (by decide), hbytes, replicate_zero_encoded, r.toText_encoded,
    replicate_succ, flatMap_cons]
  exact append_ne_nil_of_left_ne_nil (by decide) _

/-- What is read of a secret after the session is masked. -/
theorem getSecret_maskPasswords (r : Utf8Reader) (noise : Secret → Nat → Nat) (s : SecretData)
    (k : Secret) : getSecret r k (maskPasswords r noise s) =
      if k = .tunnelPassphrase then getSecret r k s
      else if k = .password then
        if s.stored k ≠ [] then maskUnder (k.key s) else []
      else if getSecret r k s ≠ [] then maskUnder (k.key s) else [] := by
  have hkey : k.key (maskStored s) = k.key s := by
    rw [maskStored]
    split
    · exact key_putStored _ _ _ _
    · rfl
  have hread : k ≠ .password → getSecret r k (maskStored s) = getSecret r k s := by
    intro hk
    rw [maskStored]
    split
    · rw [getSecret_putStored, if_neg hk]
    · rfl
  rw [maskPasswords, getSecret_foldl r noise k (by decide), hkey]
  by_cases htunnel : k = .tunnelPassphrase
  · subst htunnel
    rw [if_pos rfl, if_neg fun h => absurd h.1 (by decide), hread (by decide)]
  have hmem : k ∈ maskedSecrets := by
    cases k with
    | tunnelPassphrase => exact absurd rfl htunnel
    | _ => decide
  rw [if_neg htunnel]
  by_cases hpassword : k = .password
  · subst hpassword
    rw [if_pos rfl, maskStored]
    split
    next h =>
      rw [getSecret_putStored, if_pos rfl, if_pos ⟨hmem, decryptPassword_stars r _⟩]
    next h =>
      have hempty : getSecret r .password s = [] := by
        rw [getSecret, decryptPassword, if_pos (by simpa using h)]
      rw [hempty]
      simp
  · rw [if_neg hpassword, hread hpassword]
    by_cases hget : getSecret r k s = []
    · simp [hget]
    · rw [if_pos ⟨hmem, hget⟩, if_pos hget]

/-! ## The whole session -/

theorem mem_countedSecrets (k : Secret) : k ∈ countedSecrets := by cases k <;> decide

theorem maskUnder_eq_iff {key : UnicodeString} :
    maskUnder key = passwordMask ↔ Fits passwordMask key := by
  rw [maskUnder]
  split
  next h => simp [h]
  next h => exact ⟨fun he => absurd he (by decide), fun hf => absurd hf h⟩

theorem replaced_iff (r : Utf8Reader) (noise : Secret → Nat → Nat) (s : SecretData) :
    Replaced r s (maskPasswords r noise s) ↔ Maskable r s := by
  refine forall_congr' fun k => ?_
  rw [forall_prop_of_true (mem_countedSecrets k)]
  refine imp_congr_right fun hstored => ?_
  rw [getSecret_maskPasswords]
  by_cases htunnel : k = .tunnelPassphrase
  · rw [if_pos htunnel, if_pos htunnel]
  rw [if_neg htunnel, if_neg htunnel]
  by_cases hpassword : k = .password
  · rw [if_pos hpassword, if_pos hstored, maskUnder_eq_iff]
    simp [hpassword]
  · rw [if_neg hpassword]
    by_cases hget : getSecret r k s = []
    · rw [if_neg (not_not_intro hget)]
      refine ⟨fun h => absurd h (by decide), fun h => absurd hget (h.2 hpassword)⟩
    · rw [if_pos hget, maskUnder_eq_iff]
      simp [hget]

/-- A secret that is not there reads as nothing after the masking. -/
theorem getSecret_masked_empty (r : Utf8Reader) (noise : Secret → Nat → Nat) {s : SecretData}
    {k : Secret} (h : s.stored k = []) : getSecret r k (maskPasswords r noise s) = [] := by
  have hget : getSecret r k s = [] := by rw [getSecret, h, decryptPassword, if_pos rfl]
  rw [getSecret_maskPasswords, hget, h]
  simp

/-- Masked sessions look the same exactly when everything that they have in
secrets can be masked. -/
theorem masked_iff (r : Utf8Reader) (noise noise' : Secret → Nat → Nat) (a b : SecretData)
    (h : SameButSecrets a b) :
    Masked r noise noise' a b ↔ Maskable r a ∧ Maskable r b := by
  rw [← replaced_iff r noise a, ← replaced_iff r noise' b]
  refine ⟨And.right, fun hboth => ⟨fun k => ?_, hboth⟩⟩
  by_cases hempty : a.stored k = []
  · rw [getSecret_masked_empty r noise hempty,
      getSecret_masked_empty r noise' ((h.empty_iff k).mp hempty)]
  · rw [hboth.1 k (mem_countedSecrets k) hempty,
      hboth.2 k (mem_countedSecrets k) (mt (h.empty_iff k).mpr hempty)]

/-- The session of a user with one secret. -/
def oneSecret (k : Secret) (value : UnicodeString) : SecretData :=
  setSecret (fun _ => 0) k value
    { hostName := wstr "host", userName := wstr "user", tunnelPublicKeyFile := wstr "key.ppk" }

theorem stored_oneSecret {k : Secret} {value : UnicodeString} (h : value ≠ []) (k' : Secret) :
    (oneSecret k value).stored k' = [] ↔ k' ≠ k := by
  rw [oneSecret, setSecret, stored_putStored]
  split
  next hk =>
    rw [encryptPassword, if_neg h]
    exact ⟨fun he => absurd he (encryptBytes_ne_nil _ _), fun hne => absurd hk hne⟩
  next hk => exact ⟨fun _ => hk, fun _ => rfl⟩

theorem sameButSecrets_oneSecret (k : Secret) {a b : UnicodeString} (ha : a ≠ []) (hb : b ≠ []) :
    SameButSecrets (oneSecret k a) (oneSecret k b) where
  masterKey := rfl
  hostName := rfl
  userName := rfl
  proxyHost := rfl
  proxyUsername := rfl
  tunnelHostName := rfl
  tunnelUserName := rfl
  publicKeyFile := rfl
  tunnelPublicKeyFile := rfl
  empty_iff k' := by rw [stored_oneSecret ha, stored_oneSecret hb]

theorem maskable_password {value : UnicodeString} (h : value ≠ []) :
    Maskable utf8Reader (oneSecret .password value) := by
  intro k hk
  obtain rfl : k = .password := not_not.mp (mt (stored_oneSecret h k).mpr hk)
  have hkey : Secret.password.key (oneSecret .password value) = wstr "userhost" := by
    rw [oneSecret, setSecret, key_putStored]
    decide
  rw [if_neg (by decide), hkey]
  exact ⟨by decide, fun hne => absurd rfl hne⟩

theorem masked_two_passwords :
    SameButSecrets (oneSecret .password (wstr "one")) (oneSecret .password (wstr "two")) ∧
      Masked utf8Reader (fun _ _ => 0) (fun _ _ => 0) (oneSecret .password (wstr "one"))
        (oneSecret .password (wstr "two")) :=
  ⟨sameButSecrets_oneSecret _ (by decide) (by decide),
    (masked_iff utf8Reader (fun _ _ => 0) (fun _ _ => 0) (oneSecret .password (wstr "one"))
      (oneSecret .password (wstr "two"))
      (sameButSecrets_oneSecret _ (by decide) (by decide))).mpr
      ⟨maskable_password (by decide), maskable_password (by decide)⟩⟩

/-- The passphrase of the tunnel's key is still there in a masked session. -/
theorem tunnel_passphrase_shown :
    SameButSecrets (oneSecret .tunnelPassphrase (wstr "one"))
        (oneSecret .tunnelPassphrase (wstr "two")) ∧
      hasAnyPassword (oneSecret .tunnelPassphrase (wstr "one")) = true ∧
      getSecret utf8Reader .tunnelPassphrase
        (maskPasswords utf8Reader (fun _ _ => 0) (oneSecret .tunnelPassphrase (wstr "one"))) =
          wstr "one" ∧
      getSecret utf8Reader .tunnelPassphrase
        (maskPasswords utf8Reader (fun _ _ => 0) (oneSecret .tunnelPassphrase (wstr "two"))) =
          wstr "two" := by
  have hread : ∀ value : UnicodeString, Utf8.WellFormed value → Fits value (wstr "key.ppk") →
      getSecret utf8Reader .tunnelPassphrase (maskPasswords utf8Reader (fun _ _ => 0)
        (oneSecret .tunnelPassphrase value)) = value := by
    intro value hw hfits
    rw [getSecret_maskPasswords, if_pos rfl, oneSecret, setSecret, getSecret_putStored, if_pos rfl]
    exact decryptPassword_of_fits _ _ hw hfits
  refine ⟨sameButSecrets_oneSecret _ (by decide) (by decide), by decide,
    hread _ ⟨['o', 'n', 'e'], by decide⟩ (by decide),
    hread _ ⟨['t', 'w', 'o'], by decide⟩ (by decide)⟩

end NetBox.Session
