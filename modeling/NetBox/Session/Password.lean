import NetBox.Session.History
import Mathlib.Algebra.Ring.Nat
import Mathlib.Algebra.Ring.Int.Defs

/-! # Stored passwords

`EncryptPassword` and `DecryptPassword` of WinSCPSecurity.cpp. A password is
stored with its key in front of it, and is handed out only when the key it is
read with is the key found there. The strings of the source end at a zero byte
wherever they are taken as C strings.
-/

namespace NetBox.Session

open Base.Text Lib List

/-- `MultiByteToWideChar`: well formed bytes are read as the characters they
stand for, and what is read is always well formed. -/
structure Utf8Reader where
  toText : List UInt8 → UnicodeString
  toText_encoded : ∀ cs : List Char,
    toText (cs.flatMap String.utf8EncodeChar) = cs.flatMap Utf8.units
  wellFormed_toText : ∀ bytes, Utf8.WellFormed (toText bytes)

/-- The reader of UTF-8 that takes a wrong byte for U+FFFD. -/
def utf8Reader : Utf8Reader where
  toText := Utf8.decode
  toText_encoded cs := by rw [Utf8.decode, Utf8.decodeChars_encode]
  wellFormed_toText := Utf8.wellFormed_decode

def algMagic : UInt8 := 0xA3
def algFlag : UInt8 := 0xFF
def algInternal : UInt8 := 0
def algInternal2 : UInt8 := 2
def algMaxLen : Nat := 50

/-- `PWALG_SIMPLE_STRING`. -/
def algDigits : List UInt8 := [48, 49, 50, 51, 52, 53, 54, 55, 56, 57, 65, 66, 67, 68, 69, 70]

def simpleEncryptChar (ch : UInt8) : List UInt8 :=
  let ch := ~~~ch ^^^ algMagic
  [algDigits.getD (ch.toNat / 16) 0, algDigits.getD (ch.toNat % 16) 0]

/-- `PwStr.Pos(ch) - 1`, which finds the zero byte at the end as well. -/
def digitValue (ch : UInt8) : Int :=
  if ch = 0 then 16 else if ch ∈ algDigits then algDigits.idxOf ch else -1

def simpleDecryptChar (high low : UInt8) : UInt8 :=
  ~~~(((digitValue high * 16 + digitValue low) % 256).toNat.toUInt8 ^^^ algMagic)

/-- The next byte and the rest of the text. -/
def simpleDecryptNextChar : List UInt8 → UInt8 × List UInt8
  | a :: b :: str => (simpleDecryptChar a b, str)
  | str => (0, str)

/-- A string of bytes as a C string. -/
def cstr (bytes : List UInt8) : List UInt8 := bytes.takeWhile (· != 0)

/-- Flag, version and length. -/
def passwordHead (len : Nat) : List UInt8 :=
  algFlag :: if 255 < len then [algInternal2, (len / 256).toUInt8, (len % 256).toUInt8]
    else [algInternal, len.toUInt8]

/-- `Random`: a number below `2 ^ 31` is drawn and scaled down. The largest ones
are scaled to `max` itself. -/
def random (draw max : Nat) : Nat := draw % 2147483648 / (2147483647 / max)

/-- Random bytes. The numbers that `Random` draws are `noise`. -/
def filler (noise : Nat → Nat) (start n : Nat) : List UInt8 :=
  (List.range n).map fun i => (random (noise (start + i)) 256 % 256).toUInt8

/-- The number of random bytes in front of a text of `len` bytes. -/
def passwordShift (noise : Nat → Nat) (len : Nat) : Nat :=
  let dataLen := (passwordHead len).length + 1 + len
  if dataLen < algMaxLen then random (noise 0) (algMaxLen - dataLen) else 0

/-- What `EncryptPassword` stores for a text that has its key in front. -/
def encryptBytes (noise : Nat → Nat) (text : List UInt8) : List UInt8 :=
  let shift := passwordShift noise text.length
  let body := passwordHead text.length ++ shift.toUInt8 :: (filler noise 1 shift ++ text)
  (body ++ filler noise (1 + shift) (algMaxLen - body.length)).flatMap simpleEncryptChar

/-- `EncryptPassword` of WinSCPSecurity.cpp. -/
def Security.encryptPassword (noise : Nat → Nat) (password key : UnicodeString) : List UInt8 :=
  encryptBytes noise (cstr (Utf8.encode key ++ Utf8.encode password))

/-- `TConfiguration::EncryptPassword`. -/
def encryptPassword (noise : Nat → Nat) (password key : UnicodeString) : List UInt8 :=
  if password = [] then [] else
    encryptBytes noise (cstr (Utf8.encode key ++ Utf8.encode password))

/-- The next `n` bytes of a text. -/
def decryptChars : Nat → List UInt8 → List UInt8
  | 0, _ => []
  | n + 1, str => (simpleDecryptNextChar str).1 :: decryptChars n (simpleDecryptNextChar str).2

/-- The length that is stored behind the flag, and the rest. -/
def decryptLength (flag : UInt8) (str : List UInt8) : Option Nat × List UInt8 :=
  if flag = algFlag then
    let version := simpleDecryptNextChar str
    if version.1 = algInternal then
      let length := simpleDecryptNextChar version.2
      (some length.1.toNat, length.2)
    else if version.1 = algInternal2 then
      let high := simpleDecryptNextChar version.2
      let low := simpleDecryptNextChar high.2
      (some (high.1.toNat * 256 + low.1.toNat), low.2)
    else (none, version.2)
  else (some flag.toNat, str)

/-- What is behind the key, or nothing when it is another key. -/
def unlock (key result : List UInt8) : List UInt8 :=
  if cstr (result.take key.length) = cstr key then result.drop key.length else []

/-- The bytes that `DecryptPassword` hands out. -/
def decryptBytes (password key : List UInt8) : List UInt8 :=
  let flag := simpleDecryptNextChar password
  match decryptLength flag.1 flag.2 with
  | (none, _) => []
  | (some length, str) =>
    let shift := simpleDecryptNextChar str
    let result := decryptChars length (shift.2.drop (shift.1.toNat * 2))
    if flag.1 = algFlag then unlock key result else result

/-- `DecryptPassword` of WinSCPSecurity.cpp. -/
def Security.decryptPassword (r : Utf8Reader) (password : List UInt8) (key : UnicodeString) :
    UnicodeString :=
  r.toText (decryptBytes password (Utf8.encode key))

/-- `TConfiguration::DecryptPassword`. -/
def decryptPassword (r : Utf8Reader) (password : List UInt8) (key : UnicodeString) :
    UnicodeString :=
  if password = [] then [] else r.toText (decryptBytes password (Utf8.encode key))

/-! ## One byte and its two digits -/

theorem simpleDecryptChar_encrypted (ch : UInt8) :
    ∃ high low, simpleEncryptChar ch = [high, low] ∧ simpleDecryptChar high low = ch := by
  have hall : ∀ n : Fin 256, let ch : UInt8 := n.val.toUInt8
      let c := ~~~ch ^^^ algMagic
      simpleDecryptChar (algDigits.getD (c.toNat / 16) 0) (algDigits.getD (c.toNat % 16) 0) =
        ch := by decide +kernel
  have h := hall ⟨ch.toNat, ch.toNat_lt⟩
  refine ⟨_, _, rfl, ?_⟩
  simpa using h

@[simp] theorem simpleDecryptNextChar_encrypted (ch : UInt8) (str : List UInt8) :
    simpleDecryptNextChar (simpleEncryptChar ch ++ str) = (ch, str) := by
  obtain ⟨high, low, he, hd⟩ := simpleDecryptChar_encrypted ch
  rw [he]
  show (simpleDecryptChar high low, str) = _
  rw [hd]

theorem length_simpleEncryptChar (ch : UInt8) : (simpleEncryptChar ch).length = 2 := rfl

theorem drop_encrypted (n : Nat) (bytes : List UInt8) :
    (bytes.flatMap simpleEncryptChar).drop (n * 2) =
      (bytes.drop n).flatMap simpleEncryptChar := by
  induction n generalizing bytes with
  | zero => simp
  | succ n ih =>
    cases bytes with
    | nil => simp
    | cons b bytes =>
      rw [flatMap_cons, drop_succ_cons, ← ih, Nat.succ_mul, Nat.add_comm,
        ← drop_drop, drop_left' (length_simpleEncryptChar b)]

variable {bytes : List UInt8}

theorem decryptChars_encrypted {n : Nat} (h : n ≤ bytes.length) :
    decryptChars n (bytes.flatMap simpleEncryptChar) = bytes.take n := by
  induction n generalizing bytes with
  | zero => rfl
  | succ n ih =>
    cases bytes with
    | nil => cases h
    | cons b bytes =>
      rw [flatMap_cons, decryptChars, simpleDecryptNextChar_encrypted, take_succ_cons]
      dsimp only
      rw [ih (Nat.le_of_succ_le_succ h)]

/-! ## The whole text -/

theorem toNat_toUInt8 {n : Nat} (h : n < 256) : n.toUInt8.toNat = n := by
  simp only [Nat.toUInt8, UInt8.toNat_ofNat']
  exact Nat.mod_eq_of_lt h

/-- The length is stored in two bytes at most. -/
theorem decryptLength_head (len : Nat) (bytes : List UInt8) :
    let flag := simpleDecryptNextChar ((passwordHead len ++ bytes).flatMap simpleEncryptChar)
    flag.1 = algFlag ∧
      decryptLength flag.1 flag.2 = (some (len % 65536), bytes.flatMap simpleEncryptChar) := by
  rw [passwordHead, cons_append, flatMap_cons, simpleDecryptNextChar_encrypted]
  refine ⟨rfl, ?_⟩
  dsimp only
  rw [decryptLength, if_pos rfl]
  split
  next hlong =>
    rw [cons_append, flatMap_cons, simpleDecryptNextChar_encrypted]
    dsimp only
    rw [if_neg (by decide), if_pos rfl, cons_append, flatMap_cons,
      simpleDecryptNextChar_encrypted]
    dsimp only
    rw [cons_append, flatMap_cons, simpleDecryptNextChar_encrypted, nil_append]
    have hhigh : (len / 256).toUInt8.toNat = len / 256 % 256 := by
      simp [Nat.toUInt8, UInt8.toNat_ofNat']
    rw [hhigh, toNat_toUInt8 (Nat.mod_lt len (by decide))]
    simp only [Prod.mk.injEq, Option.some.injEq, and_true]
    omega
  next hshort =>
    rw [cons_append, flatMap_cons, simpleDecryptNextChar_encrypted]
    dsimp only
    rw [if_pos rfl, cons_append, flatMap_cons, simpleDecryptNextChar_encrypted,
      nil_append, toNat_toUInt8 (by omega), Nat.mod_eq_of_lt (by omega)]

theorem random_le (draw : Nat) {max : Nat} (h0 : 0 < max) (h : max ≤ algMaxLen) :
    random draw max ≤ algMaxLen := by
  have hdraw : draw % 2147483648 ≤ 2147483647 :=
    Nat.le_of_lt_succ (Nat.mod_lt draw (by decide))
  calc random draw max ≤ 2147483647 / (2147483647 / max) := Nat.div_le_div_right hdraw
    _ ≤ 2147483647 / (2147483647 / algMaxLen) :=
      Nat.div_le_div_left (Nat.div_le_div_left h h0) (by decide)
    _ = algMaxLen := by decide

theorem passwordShift_lt (noise : Nat → Nat) (len : Nat) : passwordShift noise len < 256 := by
  rw [passwordShift]
  split
  next h =>
    refine Nat.lt_of_le_of_lt (random_le _ (Nat.sub_pos_of_lt h) (Nat.sub_le _ _)) ?_
    decide
  next => decide

variable {password key : UnicodeString}

/-- What is read back of a stored text, before its key is looked at. -/
theorem decryptBytes_encrypted (noise : Nat → Nat) (text key : List UInt8) :
    decryptBytes (encryptBytes noise text) key =
      unlock key (text.take (text.length % 65536)) := by
  have hlen := Nat.mod_le text.length 65536
  rw [encryptBytes]
  generalize filler noise (1 + passwordShift noise text.length) _ = padding
  have hshift := passwordShift_lt noise text.length
  generalize passwordShift noise text.length = shift at hshift
  have hfill : (filler noise 1 shift).length = shift := by simp [filler]
  generalize filler noise 1 shift = front at hfill
  obtain ⟨hflag, hlength⟩ := decryptLength_head text.length
    (shift.toUInt8 :: (front ++ text) ++ padding)
  rw [← append_assoc] at hflag hlength
  rw [decryptBytes]
  dsimp only
  rw [hlength]
  dsimp only
  rw [if_pos hflag, cons_append, flatMap_cons, simpleDecryptNextChar_encrypted]
  dsimp only
  rw [toNat_toUInt8 hshift, drop_encrypted, append_assoc, drop_left' hfill,
    decryptChars_encrypted (by rw [length_append]; omega),
    take_append_of_le_length hlen]

/-! ## A password and its key -/

theorem encryptBytes_ne_nil (noise : Nat → Nat) (text : List UInt8) :
    encryptBytes noise text ≠ [] := by
  rw [encryptBytes, passwordHead]
  simp [simpleEncryptChar]

theorem cstr_eq (h : 0 ∉ bytes) : cstr bytes = bytes := by
  rw [cstr, takeWhile_eq_self_iff]
  intro b hb
  simpa using fun he : b = 0 => h (he ▸ hb)

/-- What is not longer than the key has nothing behind it. -/
theorem unlock_of_length_le {key result : List UInt8} (h : result.length ≤ key.length) :
    unlock key result = [] := by
  rw [unlock]
  split
  · exact drop_eq_nil_of_le h
  · rfl

theorem unlock_append (key rest : List UInt8) : unlock key (key ++ rest) = rest := by
  rw [unlock, take_left, if_pos rfl, drop_left]

theorem length_cstr_lt (h : 0 ∈ bytes) : (cstr bytes).length < bytes.length := by
  refine Nat.lt_of_le_of_ne (takeWhile_sublist _).length_le fun hlen => ?_
  have hself : cstr bytes = bytes := (takeWhile_sublist _).eq_of_length hlen
  rw [cstr, takeWhile_eq_self_iff] at hself
  have hzero := hself 0 h
  cases hzero

/-- A key that the text does not begin with hands nothing out. -/
theorem unlock_of_not_isPrefix {key result : List UInt8} (hzero : 0 ∉ result)
    (h : ¬ key <+: result) : unlock key result = [] := by
  rw [unlock]
  split
  next heq =>
    rw [cstr_eq (fun hmem => hzero (mem_of_mem_take hmem))] at heq
    by_cases hkey : 0 ∈ key
    · -- the comparison ended at the zero byte, so the text is shorter than the key
      have hlt := length_cstr_lt hkey
      rw [← heq, length_take] at hlt
      exact drop_eq_nil_of_le (by omega)
    · rw [cstr_eq hkey] at heq
      exact absurd (heq ▸ List.take_prefix key.length result) h
  next => rfl

/-- The password can be stored under the key. -/
def Fits (password key : UnicodeString) : Prop :=
  0 ∉ key ∧ 0 ∉ password ∧ (Utf8.encode key).length + (Utf8.encode password).length < 65536

instance (password key : UnicodeString) : Decidable (Fits password key) :=
  inferInstanceAs (Decidable (_ ∧ _ ∧ _))

theorem toText_encode (r : Utf8Reader) {text : UnicodeString} (h : Utf8.WellFormed text) :
    r.toText (Utf8.encode text) = text := by
  rw [Utf8.encode, r.toText_encoded, h.chars]

theorem toText_nil (r : Utf8Reader) : r.toText [] = [] := r.toText_encoded []

theorem cstr_keyed (hkey : 0 ∉ key) (hpassword : 0 ∉ password) :
    cstr (Utf8.encode key ++ Utf8.encode password) =
      Utf8.encode key ++ Utf8.encode password := by
  refine cstr_eq fun hmem => ?_
  rcases mem_append.mp hmem with hmem | hmem
  · exact hkey (Utf8.zero_mem_encode.mp hmem)
  · exact hpassword (Utf8.zero_mem_encode.mp hmem)

/-- What is read under `key'` of a password stored under `key`. -/
theorem decryptBytes_security (noise : Nat → Nat) (hfits : Fits password key) (key' : List UInt8) :
    decryptBytes (Security.encryptPassword noise password key) key' =
      unlock key' (Utf8.encode key ++ Utf8.encode password) := by
  obtain ⟨hkey, hpassword, hlen⟩ := hfits
  rw [Security.encryptPassword, decryptBytes_encrypted, cstr_keyed hkey hpassword,
    Nat.mod_eq_of_lt (by rw [length_append]; exact hlen), take_length]

/-- A stored password comes back under its key and under no other one: a key
that the stored text does not begin with gets the empty password. -/
theorem security_decryptPassword (r : Utf8Reader) (noise : Nat → Nat)
    {password key : UnicodeString} (hw : Utf8.WellFormed password)
    (hkey : 0 ∉ Utf8.encode key) (hpassword : 0 ∉ Utf8.encode password)
    (hlen : (Utf8.encode key).length + (Utf8.encode password).length ≤ 65535) :
    Security.decryptPassword r (Security.encryptPassword noise password key) key = password ∧
      ∀ key2 : UnicodeString,
        ¬ Utf8.encode key2 <+: Utf8.encode key ++ Utf8.encode password →
        Security.decryptPassword r (Security.encryptPassword noise password key) key2 = [] := by
  have hfits : Fits password key :=
    ⟨mt Utf8.zero_mem_encode.mpr hkey, mt Utf8.zero_mem_encode.mpr hpassword,
      Nat.lt_succ_of_le hlen⟩
  have hzero : 0 ∉ Utf8.encode key ++ Utf8.encode password := by
    rw [List.mem_append]
    exact not_or.mpr ⟨hkey, hpassword⟩
  refine ⟨?_, fun key2 hkey2 => ?_⟩
  · rw [Security.decryptPassword, decryptBytes_security noise hfits, unlock_append,
      toText_encode r hw]
  · rw [Security.decryptPassword, decryptBytes_security noise hfits,
      unlock_of_not_isPrefix hzero hkey2, toText_nil]

theorem security_decryptPassword_user :
    Security.decryptPassword utf8Reader
        (Security.encryptPassword (fun _ => 0) [0x70] [0x75]) [0x75] = [0x70] ∧
      Security.decryptPassword utf8Reader
        (Security.encryptPassword (fun _ => 0) [0x70] [0x75]) [0x78] = [] := by
  have h := @security_decryptPassword utf8Reader (fun _ => 0) [0x70] [0x75] ⟨['p'], rfl⟩
    (by decide) (by decide) (by decide)
  exact ⟨h.1, h.2 [0x78] (by decide)⟩

/-- What a password stored under `key` reads as under `key'`. -/
theorem decryptPassword_encrypted (r : Utf8Reader) (noise : Nat → Nat)
    {password : UnicodeString} (h : password ≠ []) (key key' : UnicodeString) :
    let text := cstr (Utf8.encode key ++ Utf8.encode password)
    decryptPassword r (encryptPassword noise password key) key' =
      r.toText (unlock (Utf8.encode key') (text.take (text.length % 65536))) := by
  rw [decryptPassword, encryptPassword, if_neg h, if_neg (encryptBytes_ne_nil _ _),
    decryptBytes_encrypted]

/-- A stored password is read back with the key it was stored under. -/
theorem decryptPassword_of_fits (r : Utf8Reader) (noise : Nat → Nat) (hw : Utf8.WellFormed password)
    (hfits : Fits password key) :
    decryptPassword r (encryptPassword noise password key) key = password := by
  by_cases hempty : password = []
  · rw [hempty]
    rfl
  obtain ⟨hkey, hpassword, hlen⟩ := hfits
  rw [decryptPassword_encrypted r noise hempty, cstr_keyed hkey hpassword, length_append,
    Nat.mod_eq_of_lt hlen, ← length_append, take_length, unlock_append,
    toText_encode r hw]

/-- A password that does not fit its key is lost as a whole, unless it is itself
the reason. -/
theorem decryptPassword_of_not_fits (r : Utf8Reader) (noise : Nat → Nat) (hne : password ≠ [])
    (hzero : 0 ∉ password) (hshort : (Utf8.encode password).length < 65536)
    (hfits : ¬ Fits password key) :
    decryptPassword r (encryptPassword noise password key) key = [] := by
  rw [decryptPassword_encrypted r noise hne, unlock_of_length_le, toText_nil]
  rw [length_take]
  by_cases hkey : 0 ∈ key
  · have hcstr : (cstr (Utf8.encode key ++ Utf8.encode password)).length ≤
        (Utf8.encode key).length := by
      obtain ⟨a, b, hsplit⟩ := append_of_mem (Utf8.zero_mem_encode.mpr hkey)
      rw [hsplit, append_assoc, cstr, cons_append, takeWhile_append]
      split
      · simp
      · refine Nat.le_trans (takeWhile_sublist _).length_le ?_
        simp
    omega
  · have hlen : 65536 ≤ (Utf8.encode key).length + (Utf8.encode password).length := by
      refine Nat.le_of_not_lt fun hlt => hfits ⟨hkey, hzero, hlt⟩
    have hcstr : (cstr (Utf8.encode key ++ Utf8.encode password)).length =
        (Utf8.encode key).length + (Utf8.encode password).length := by
      rw [cstr_keyed hkey hzero, length_append]
    rw [hcstr]
    omega

end NetBox.Session
