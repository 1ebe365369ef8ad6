import NetBox.Lib.Keystream
import NetBox.Session.Password

/-! # Encryption with a password

The file encryption of Cryptography.cpp: HMAC over SHA-1, the keys that are
derived from a password and a salt, AES in counter mode, and the two formats that
are built from them, the encrypted text with its MAC and the verifier of a
password.
-/
namespace NetBox.Crypto

open Base.Text Lib Session List

/-- SHA-1, and AES of one block under a key. -/
structure Primitives where
  sha1 : List UInt8 → List UInt8
  length_sha1 : ∀ bytes, (sha1 bytes).length = 20
  aes : List UInt8 → List UInt8 → List UInt8

def inBlockLength : Nat := 64
def outBlockLength : Nat := 20
def hmacInData : Nat := 0xffffffff
def blockSize : Nat := 16
def keyingIterations : Nat := 1000
def pwdVerLength : Nat := 2

def keyLength (mode : Nat) : Nat := 8 * (mode % 4) + 8
def saltLength (mode : Nat) : Nat := 4 * (mode % 4) + 4
def macLength (_ : Nat) : Nat := 10

def passwordManagerAesMode : Nat := 3

/-! ## HMAC -/

/-- `hmac_ctx`. The running hash is the bytes that it has been given. -/
structure HmacCtx where
  key : List UInt8 := List.replicate inBlockLength 0
  ctx : List UInt8 := []
  klen : Nat := 0

/-- `hmac_sha1_key` -/
def hmacSha1Key (key : List UInt8) (cx : HmacCtx) : HmacCtx :=
  let cx :=
    if inBlockLength < cx.klen + key.length then
      { cx with ctx := (if cx.klen ≤ inBlockLength then cx.key.take cx.klen else cx.ctx) ++ key }
    else { cx with key := cx.key.take cx.klen ++ key ++ cx.key.drop (cx.klen + key.length) }
  { cx with klen := cx.klen + key.length }

/-- The end of the key input: a long key is hashed, the key is padded and starts
the inner hash. -/
def hmacSha1Start (p : Primitives) (cx : HmacCtx) : HmacCtx :=
  let cx :=
    if inBlockLength < cx.klen then
      { cx with key := p.sha1 cx.ctx ++ cx.key.drop outBlockLength, klen := outBlockLength }
    else cx
  let key := (cx.key.take cx.klen ++ List.replicate (inBlockLength - cx.klen) 0).map (· ^^^ 0x36)
  { key := key, ctx := key, klen := hmacInData }

/-- `hmac_sha1_data` -/
def hmacSha1Data (p : Primitives) (data : List UInt8) (cx : HmacCtx) : HmacCtx :=
  let cx := if cx.klen ≠ hmacInData then hmacSha1Start p cx else cx
  { cx with ctx := cx.ctx ++ data }

/-- `hmac_sha1_end`. The context is not used again before it is copied over. -/
def hmacSha1End (p : Primitives) (macLen : Nat) (cx : HmacCtx) : List UInt8 :=
  let cx := if cx.klen ≠ hmacInData then hmacSha1Data p [] cx else cx
  let key := cx.key.map (· ^^^ (0x36 ^^^ 0x5c))
  (p.sha1 (key ++ p.sha1 cx.ctx)).take macLen

/-! ## Keys of a password -/

/-- The key mixing of one block: `c1` is the context of the password, and `c3`
the one that the next round goes on from. -/
def mixKey (p : Primitives) (c1 : HmacCtx) :
    Nat → List UInt8 → HmacCtx → List UInt8 → List UInt8
  | 0, _, _, ux => ux
  | iter + 1, uu, c3, ux =>
    let uu := hmacSha1End p outBlockLength (hmacSha1Data p uu c3)
    mixKey p c1 iter uu c1 (List.zipWith (· ^^^ ·) ux uu)

/-- `derive_key` -/
def deriveKey (p : Primitives) (pwd salt : List UInt8) (iter keyLen : Nat) : List UInt8 :=
  let c1 := hmacSha1Key pwd {}
  let c2 := hmacSha1Data p salt c1
  let blocks := 1 + (keyLen - 1) / outBlockLength
  let block (i : Nat) : List UInt8 :=
    mixKey p c1 iter
      [((i + 1) / 0x1000000).toUInt8, ((i + 1) / 0x10000).toUInt8, ((i + 1) / 0x100).toUInt8,
        (i + 1).toUInt8] c2 (List.replicate outBlockLength 0)
  ((List.range blocks).flatMap block).take keyLen

/-! ## AES in counter mode -/

/-- The bytes of every word the other way round. -/
def swapWords : List UInt8 → List UInt8
  | a :: b :: c :: d :: rest => d :: c :: b :: a :: swapWords rest
  | rest => rest

/-- `aes_encrypt_block` -/
def aesEncryptBlock (p : Primitives) (key block : List UInt8) : List UInt8 :=
  swapWords (p.aes key (swapWords block))

/-- `fcrypt_ctx` -/
structure FcryptCtx where
  nonce : List UInt8 := List.replicate blockSize 0
  encrBfr : List UInt8 := []
  encrKey : List UInt8
  authCtx : HmacCtx
  encrPos : Nat := blockSize
  mode : Nat

/-- The next number in the first `n` bytes of a nonce. -/
def incrementNonce : Nat → List UInt8 → List UInt8
  | n + 1, b :: nonce => if b + 1 ≠ 0 then (b + 1) :: nonce else 0 :: incrementNonce n nonce
  | _, nonce => nonce

/-- One turn of the loop of `encr_data`: the byte that is combined with the data. -/
def encrByte (p : Primitives) (cx : FcryptCtx) : UInt8 × FcryptCtx :=
  let cx :=
    if cx.encrPos = blockSize then
      let nonce := incrementNonce 8 cx.nonce
      { cx with nonce := nonce, encrBfr := aesEncryptBlock p cx.encrKey nonce, encrPos := 0 }
    else cx
  (cx.encrBfr.getD cx.encrPos 0, { cx with encrPos := cx.encrPos + 1 })

/-- `encr_data` -/
def encrData (p : Primitives) (data : List UInt8) (cx : FcryptCtx) : List UInt8 × FcryptCtx :=
  Keystream.xorStream (encrByte p) data cx

/-- `fcrypt_init` -/
def fcryptInit (p : Primitives) (mode : Nat) (pwd salt : List UInt8) : FcryptCtx :=
  let kbuf := deriveKey p pwd (salt.take (saltLength mode)) keyingIterations
    (2 * keyLength mode + pwdVerLength)
  { encrKey := kbuf.take (keyLength mode)
    authCtx := hmacSha1Key ((kbuf.drop (keyLength mode)).take (keyLength mode)) {}
    mode := mode }

/-- `fcrypt_encrypt` -/
def fcryptEncrypt (p : Primitives) (data : List UInt8) (cx : FcryptCtx) :
    List UInt8 × FcryptCtx :=
  let (data, cx) := encrData p data cx
  (data, { cx with authCtx := hmacSha1Data p data cx.authCtx })

/-- `fcrypt_decrypt` -/
def fcryptDecrypt (p : Primitives) (data : List UInt8) (cx : FcryptCtx) :
    List UInt8 × FcryptCtx :=
  encrData p data { cx with authCtx := hmacSha1Data p data cx.authCtx }

/-- `fcrypt_end` -/
def fcryptEnd (p : Primitives) (cx : FcryptCtx) : List UInt8 :=
  hmacSha1End p (macLength cx.mode) cx.authCtx

/-! ## Encrypted texts and verifiers -/

/-- What `AES256Salt` draws. -/
def Salt : Type := { bytes : List UInt8 // bytes.length = saltLength passwordManagerAesMode }

/-- `AES256EncryptWithMAC` with its salt, its text and its MAC apart. `drawn` is
the salt that is drawn when none is given. -/
def aes256EncryptParts (p : Primitives) (drawn : Salt) (input : List UInt8)
    (password : UnicodeString) (salt : List UInt8) : List UInt8 × List UInt8 × List UInt8 :=
  let salt := if salt.isEmpty then drawn.1 else salt
  let (output, aes) := fcryptEncrypt p input
    (fcryptInit p passwordManagerAesMode (Utf8.encode password) salt)
  (salt, output, fcryptEnd p aes)

/-- `AES256EncryptWithMAC` -/
def aes256EncryptWithMac (p : Primitives) (drawn : Salt) (input : List UInt8)
    (password : UnicodeString) : List UInt8 :=
  let (salt, encrypted, mac) := aes256EncryptParts p drawn input password []
  salt ++ encrypted ++ mac

/-- `AES256DecryptWithMAC` of a text whose salt and MAC are apart: whether the MAC
is right, and the text. MACs are compared as C strings. -/
def aes256DecryptParts (p : Primitives) (input : List UInt8) (password : UnicodeString)
    (salt mac : List UInt8) : Bool × List UInt8 :=
  let (output, aes) := fcryptDecrypt p input
    (fcryptInit p passwordManagerAesMode (Utf8.encode password) salt)
  (cstr (fcryptEnd p aes) == cstr mac, output)

/-- `AES256DecryptWithMAC`. A text that is too short leaves the output as it is. -/
def aes256DecryptWithMac (p : Primitives) (input : List UInt8) (password : UnicodeString)
    (output : List UInt8) : Bool × List UInt8 :=
  let saltLen := saltLength passwordManagerAesMode
  let macLen := macLength passwordManagerAesMode
  if saltLen + macLen < input.length then
    aes256DecryptParts p ((input.drop saltLen).take (input.length - saltLen - macLen)) password
      (input.take saltLen) ((input.drop (input.length - macLen)).take macLen)
  else (false, output)

/-- `AES256CreateVerifier`. The dummy is drawn first. -/
def aes256CreateVerifier (p : Primitives) (dummy drawn : Salt) (input : UnicodeString) :
    List UInt8 :=
  let (salt, _, mac) := aes256EncryptParts p drawn dummy.1 input []
  salt ++ dummy.1 ++ mac

/-- `AES256Verify` -/
def aes256Verify (p : Primitives) (drawn : Salt) (input : UnicodeString)
    (verifier : List UInt8) : Bool :=
  let saltLen := saltLength passwordManagerAesMode
  let salt := verifier.take saltLen
  let dummy := (verifier.drop saltLen).take saltLen
  let mac := (verifier.drop (saltLen + saltLen)).take (macLength passwordManagerAesMode)
  let (_, _, mac2) := aes256EncryptParts p drawn dummy input salt
  cstr mac == cstr mac2

/-! ## What the HMAC computes -/

/-- The key of an HMAC as one block. -/
def hmacBlock (p : Primitives) (key : List UInt8) : List UInt8 :=
  let key := if inBlockLength < key.length then p.sha1 key else key
  key ++ List.replicate (inBlockLength - key.length) 0

/-- HMAC, as it is defined. -/
def hmac (p : Primitives) (key message : List UInt8) : List UInt8 :=
  p.sha1 ((hmacBlock p key).map (· ^^^ 0x5c) ++
    p.sha1 ((hmacBlock p key).map (· ^^^ 0x36) ++ message))

/-- The context of a key that has been given the message so far. -/
def inData (p : Primitives) (key message : List UInt8) : HmacCtx where
  key := (hmacBlock p key).map (· ^^^ 0x36)
  ctx := (hmacBlock p key).map (· ^^^ 0x36) ++ message
  klen := hmacInData

theorem hmacSha1Data_inData (p : Primitives) (key message data : List UInt8) :
    hmacSha1Data p data (inData p key message) = inData p key (message ++ data) := by
  rw [hmacSha1Data, if_neg (fun h => h rfl), inData, inData, append_assoc]

theorem klen_hmacSha1Key (key : List UInt8) : (hmacSha1Key key {}).klen = key.length := by
  simp only [hmacSha1Key]
  split <;> exact Nat.zero_add key.length

theorem hmacSha1Data_key (p : Primitives) {key : List UInt8} (h : key.length < hmacInData)
    (data : List UInt8) : hmacSha1Data p data (hmacSha1Key key {}) = inData p key data := by
  have hklen := klen_hmacSha1Key key
  have hstart : hmacSha1Start p (hmacSha1Key key {}) = inData p key [] := by
    rw [hmacSha1Start, hklen, inData, hmacBlock, append_nil]
    by_cases hlong : inBlockLength < key.length
    · have hctx : (hmacSha1Key key {}).ctx = key := by
        simp [hmacSha1Key, hlong]
      rw [if_pos hlong, if_pos hlong, hctx]
      simp only [take_left' (p.length_sha1 key), p.length_sha1, outBlockLength]
    · have hkey : (hmacSha1Key key {}).key.take key.length = key := by
        simp [hmacSha1Key, hlong]
      rw [if_neg hlong, if_neg hlong, hklen, hkey]
  rw [hmacSha1Data, hklen, if_pos (Nat.ne_of_lt h), hstart]
  simp only [inData, append_nil]

theorem hmacSha1End_inData (p : Primitives) (macLen : Nat) (key message : List UInt8) :
    hmacSha1End p macLen (inData p key message) = (hmac p key message).take macLen := by
  have hopad : ((hmacBlock p key).map (· ^^^ 0x36)).map (· ^^^ (0x36 ^^^ 0x5c)) =
      (hmacBlock p key).map (· ^^^ 0x5c) := by
    rw [map_map]
    refine map_congr_left fun b _ => ?_
    rw [Function.comp_apply, ← UInt8.xor_assoc, UInt8.xor_assoc b, UInt8.xor_self, UInt8.xor_zero]
  rw [hmacSha1End, if_neg (fun h => h rfl)]
  simp only [inData]
  rw [hopad, hmac]

/-! ## Decryption of what was encrypted -/

theorem encrByte_authCtx (p : Primitives) (a : HmacCtx) (cx : FcryptCtx) :
    encrByte p { cx with authCtx := a } =
      ((encrByte p cx).1, { (encrByte p cx).2 with authCtx := a }) := by
  simp only [encrByte]
  split <;> rfl

/-- The authentication has no part in the encryption. -/
theorem encrData_authCtx (p : Primitives) (data : List UInt8) (a : HmacCtx) (cx : FcryptCtx) :
    encrData p data { cx with authCtx := a } =
      ((encrData p data cx).1, { (encrData p data cx).2 with authCtx := a }) :=
  Keystream.xorStream_map (encrByte_authCtx p a) data cx

theorem authCtx_encrData (p : Primitives) (data : List UInt8) (cx : FcryptCtx) :
    (encrData p data cx).2.authCtx = cx.authCtx :=
  congrArg (fun r => r.2.authCtx) (encrData_authCtx p data cx.authCtx cx)

theorem length_fcryptEncrypt (p : Primitives) (data : List UInt8) (cx : FcryptCtx) :
    (fcryptEncrypt p data cx).1.length = data.length :=
  Keystream.length_xorStream (encrByte p) data cx

/-- The text comes back, with the MAC that the encryption ended with. -/
theorem fcryptDecrypt_encrypted (p : Primitives) (data : List UInt8) (cx : FcryptCtx) :
    (fcryptDecrypt p (fcryptEncrypt p data cx).1 cx).1 = data ∧
      fcryptEnd p (fcryptDecrypt p (fcryptEncrypt p data cx).1 cx).2 =
        fcryptEnd p (fcryptEncrypt p data cx).2 := by
  have htwice : encrData p (encrData p data cx).1 cx = (data, (encrData p data cx).2) :=
    Keystream.xorStream_xorStream (encrByte p) data cx
  rw [fcryptDecrypt, encrData_authCtx]
  refine ⟨congrArg Prod.fst htwice, ?_⟩
  simp only [fcryptEnd, fcryptEncrypt, authCtx_encrData]
  rfl

theorem length_fcryptEnd (p : Primitives) (cx : FcryptCtx) :
    (fcryptEnd p cx).length = macLength passwordManagerAesMode := by
  rw [fcryptEnd, hmacSha1End]
  simp only [length_take, p.length_sha1]
  rfl

/-! ## Encrypted texts and verifiers come back -/

variable (p : Primitives) (drawn : Salt) (password : UnicodeString)

/-- The context that both directions start from. -/
def started (salt : List UInt8) : FcryptCtx :=
  fcryptInit p passwordManagerAesMode (Utf8.encode password) salt

theorem aes256EncryptWithMac_eq (input : List UInt8) :
    aes256EncryptWithMac p drawn input password =
      drawn.1 ++ (fcryptEncrypt p input (started p password drawn.1)).1 ++
        fcryptEnd p (fcryptEncrypt p input (started p password drawn.1)).2 := rfl

theorem length_aes256EncryptWithMac (input : List UInt8) :
    (aes256EncryptWithMac p drawn input password).length =
      input.length + saltLength passwordManagerAesMode + macLength passwordManagerAesMode := by
  rw [aes256EncryptWithMac_eq, length_append, length_append, length_fcryptEncrypt,
    length_fcryptEnd, drawn.2, Nat.add_comm input.length]

theorem aes256DecryptParts_encrypted (input salt : List UInt8) :
    let encrypted := fcryptEncrypt p input (started p password salt)
    aes256DecryptParts p encrypted.1 password salt (fcryptEnd p encrypted.2) =
      (true, input) := by
  obtain ⟨htext, hmac⟩ := fcryptDecrypt_encrypted p input (started p password salt)
  simp only [aes256DecryptParts]
  rw [started] at htext hmac ⊢
  rw [htext, hmac, beq_self_eq_true]

theorem aes256DecryptWithMac_encrypted {input : List UInt8} (h : input ≠ [])
    (output : List UInt8) :
    aes256DecryptWithMac p (aes256EncryptWithMac p drawn input password) password output =
      (true, input) := by
  have hlen := length_aes256EncryptWithMac p drawn password input
  have hpos := length_pos_of_ne_nil h
  rw [aes256DecryptWithMac, if_pos (by omega), hlen, aes256EncryptWithMac_eq]
  have htext := length_fcryptEncrypt p input (started p password drawn.1)
  have hmacLen := length_fcryptEnd p (fcryptEncrypt p input (started p password drawn.1)).2
  have hparts := aes256DecryptParts_encrypted p password input drawn.1
  generalize fcryptEncrypt p input (started p password drawn.1) = encrypted at *
  have hsalt := drawn.2
  have h1 : input.length + saltLength passwordManagerAesMode + macLength passwordManagerAesMode -
      saltLength passwordManagerAesMode - macLength passwordManagerAesMode = input.length := by
    omega
  have h2 : input.length + saltLength passwordManagerAesMode + macLength passwordManagerAesMode -
      macLength passwordManagerAesMode = (drawn.1 ++ encrypted.1).length := by
    rw [length_append, hsalt, htext]
    omega
  rw [h1, h2, drop_left, ← hmacLen, take_length, append_assoc,
    drop_left' hsalt, take_left' hsalt, take_left' htext]
  exact hparts

/-- The length check takes the encryption of the empty text for too short. -/
theorem aes256DecryptWithMac_empty (output : List UInt8) :
    aes256DecryptWithMac p (aes256EncryptWithMac p drawn [] password) password output =
      (false, output) := by
  have hlen := length_aes256EncryptWithMac p drawn password []
  rw [length_nil, Nat.zero_add] at hlen
  rw [aes256DecryptWithMac, if_neg (by omega)]

theorem aes256Verify_created (dummy drawn' : Salt) :
    aes256Verify p drawn' password (aes256CreateVerifier p dummy drawn password) = true := by
  have hne : drawn.1.isEmpty = false := by
    rw [isEmpty_eq_false_iff, ← length_pos_iff, drawn.2]
    decide
  have hmac : ∀ salt : List UInt8, salt.isEmpty = false →
      (aes256EncryptParts p drawn' dummy.1 password salt).2.2 =
        fcryptEnd p (fcryptEncrypt p dummy.1 (started p password salt)).2 := by
    intro salt h
    rw [aes256EncryptParts, h]
    rfl
  have hcreated : aes256CreateVerifier p dummy drawn password = drawn.1 ++ (dummy.1 ++
      fcryptEnd p (fcryptEncrypt p dummy.1 (started p password drawn.1)).2) :=
    append_assoc drawn.1 dummy.1 _
  rw [aes256Verify, hcreated, take_left' drawn.2, ← drop_drop,
    drop_left' drawn.2, take_left' dummy.2, drop_left' dummy.2,
    take_of_length_le (Nat.le_of_eq (length_fcryptEnd p _))]
  simp only
  rw [hmac drawn.1 hne, beq_self_eq_true]

/-- What is asked of the encryption of `input`: it is read back, it is longer by
the salt and the MAC only, and the password is verified. -/
def RoundTrips (input : List UInt8) : Prop :=
  (∀ output, aes256DecryptWithMac p (aes256EncryptWithMac p drawn input password) password
      output = (true, input)) ∧
    (aes256EncryptWithMac p drawn input password).length =
      input.length + saltLength passwordManagerAesMode + macLength passwordManagerAesMode ∧
    ∀ dummy drawn' : Salt,
      aes256Verify p drawn' password (aes256CreateVerifier p dummy drawn password) = true

/-- An encrypted text comes back exactly when it is not empty. -/
theorem roundTrips_iff (input : List UInt8) : RoundTrips p drawn password input ↔ input ≠ [] := by
  constructor
  · rintro ⟨hdecrypt, -, -⟩ rfl
    have h := hdecrypt []
    rw [aes256DecryptWithMac_empty] at h
    cases h
  · intro h
    exact ⟨aes256DecryptWithMac_encrypted p drawn password h,
      length_aes256EncryptWithMac p drawn password input, aes256Verify_created p drawn password⟩

/-- Primitives that give zeros only. -/
def zeroPrimitives : Primitives where
  sha1 _ := List.replicate 20 0
  length_sha1 _ := length_replicate
  aes _ _ := List.replicate blockSize 0

def sevenSalt : Salt := ⟨List.replicate 16 7, rfl⟩

theorem empty_not_roundTrips : ¬ RoundTrips zeroPrimitives sevenSalt (wstr "secret") [] := by
  rintro ⟨hdecrypt, -, -⟩
  have h := hdecrypt []
  rw [aes256DecryptWithMac_empty] at h
  cases h

/-! ## What is accepted -/

theorem fcryptEncrypt_decrypted (data : List UInt8) (cx : FcryptCtx) :
    (fcryptEncrypt p (fcryptDecrypt p data cx).1 cx).1 = data := by
  rw [fcryptDecrypt, encrData_authCtx]
  exact congrArg Prod.fst (Keystream.xorStream_xorStream (encrByte p) data cx)

theorem aes256DecryptParts_iff {body salt mac text : List UInt8} :
    aes256DecryptParts p body password salt mac = (true, text) ↔
      (fcryptEncrypt p text (started p password salt)).1 = body ∧
      cstr (fcryptEnd p (fcryptEncrypt p text (started p password salt)).2) = cstr mac := by
  rw [aes256DecryptParts, ← started]
  generalize started p password salt = cx
  rw [Prod.mk.injEq, beq_iff_eq]
  constructor
  · rintro ⟨hmac, rfl⟩
    have hend := (fcryptDecrypt_encrypted p (fcryptDecrypt p body cx).1 cx).2
    rw [fcryptEncrypt_decrypted] at hend
    exact ⟨fcryptEncrypt_decrypted p body cx, hend ▸ hmac⟩
  · rintro ⟨rfl, hmac⟩
    obtain ⟨htext, hend⟩ := fcryptDecrypt_encrypted p text cx
    exact ⟨hend.symm ▸ hmac, htext⟩

/-- What is accepted is what the encryption makes of the text that is returned, under the
salt that the input begins with. Of the MAC only the bytes up to the first zero matter. -/
theorem aes256DecryptWithMac_accepts_iff (input output text : List UInt8) :
    let saltLen := saltLength passwordManagerAesMode
    let macLen := macLength passwordManagerAesMode
    let (_, encrypted, mac) := aes256EncryptParts p drawn text password (input.take saltLen)
    aes256DecryptWithMac p input password output = (true, text) ↔
      saltLen + macLen < input.length ∧
      encrypted = (input.drop saltLen).take (input.length - saltLen - macLen) ∧
      cstr mac = cstr ((input.drop (input.length - macLen)).take macLen) := by
  intro saltLen macLen
  by_cases hlen : saltLen + macLen < input.length
  · have hsalt : (input.take saltLen).isEmpty = false := by
      rw [isEmpty_eq_false_iff, ← length_pos_iff, length_take]
      exact Nat.lt_min.mpr ⟨by decide, by omega⟩
    rw [aes256EncryptParts, hsalt, if_neg Bool.false_ne_true, ← started]
    dsimp only
    rw [aes256DecryptWithMac, if_pos hlen, aes256DecryptParts_iff, and_iff_right hlen]
  · dsimp only
    rw [aes256DecryptWithMac, if_neg hlen]
    exact iff_of_false (fun h => by cases h) fun h => hlen h.1

end NetBox.Crypto
