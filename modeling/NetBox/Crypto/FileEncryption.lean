import NetBox.Crypto.Fcrypt

/-! # Encryption of files and file names

`TEncryption` of Cryptography.cpp. A file is encrypted block by block under a salt
that stands in a header in front of it. AES in counter mode is a key stream that
moves on in whole blocks only, so what is left behind the last whole block waits
for the next one. The strings of the source count their characters from 1.
-/
namespace NetBox.Crypto

open Base.Text Lib Session

/-- The exceptions that are thrown here. -/
inductive EncryptionError where
  | indexOutOfRange
  | unknownFileEncryption
  | notEncryptedFileName
  | notImplemented (errorId : Nat)
  deriving DecidableEq, Repr

/-- The key stream under a key and a counter that it started from, by the position
of its bytes. -/
abbrev Cipher := List UInt8 → List UInt8 → Nat → UInt8

/-- `AESContext` -/
structure AesContext where
  key : List UInt8
  iv : List UInt8 := []
  pos : Nat := 0

/-- `RawByteString::operator []` -/
def charAt (str : List UInt8) (index : Nat) : Except EncryptionError UInt8 :=
  if index < 1 ∨ str.length < index then .error .indexOutOfRange
  else .ok (str.getD (index - 1) 0)

/-- `RawByteString::operator +=`. What is appended is taken as a C string. -/
def appendRaw (str more : List UInt8) : List UInt8 := str ++ cstr more

/-- `call_aes_sdctr` -/
def aesSdctr (c : Cipher) (data : List UInt8) (ctx : AesContext) : List UInt8 × AesContext :=
  Keystream.xorStream
    (fun ctx => (c ctx.key ctx.iv ctx.pos, { ctx with pos := ctx.pos + 1 })) data ctx

structure TEncryption where
  salt : List UInt8 := []
  inputHeader : List UInt8 := []
  overflowBuffer : List UInt8 := []
  outputtedHeader : Bool := false
  context : AesContext

/-- The constructor. -/
def TEncryption.new (key : List UInt8) : TEncryption := { context := { key := key } }

/-- The sixteen bytes that an encrypted file begins with. -/
def aesCtrMagic : List UInt8 := [97, 101, 115, 99, 116, 114] ++ List.replicate 10 46

def aesCtrExt : UnicodeString := wstr ".aesctr.enc"

def getOverhead : Nat := aesCtrMagic.length + saltLength passwordManagerAesMode

def roundToBlock (size : Nat) : Nat :=
  if size % blockSize ≠ 0 then size + (blockSize - size % blockSize) else size

def roundToBlockDown (size : Nat) : Nat := size - size % blockSize

namespace TEncryption

/-- `SetSalt`, which passes on the address of `FSalt[0]`. -/
def setSalt (e : TEncryption) : Except EncryptionError TEncryption := do
  let _ ← charAt e.salt 0
  return { e with context := { e.context with iv := e.salt, pos := 0 } }

/-- `NeedSalt`; `drawn` is what `AES256Salt` draws. -/
def needSalt (drawn : Salt) (e : TEncryption) : Except EncryptionError TEncryption :=
  if e.salt.isEmpty then setSalt { e with salt := drawn.1 } else .ok e

/-- `Aes` of the data of a buffer. -/
def aesData (c : Cipher) (data : List UInt8) (e : TEncryption) : List UInt8 × TEncryption :=
  let (data, context) := aesSdctr c data e.context
  (data, { e with context := context })

/-- `Aes` of a buffer of the file. -/
def aesBuffer (c : Cipher) (buffer : List UInt8) (last : Bool) (e : TEncryption) :
    List UInt8 × TEncryption :=
  let buffer := e.overflowBuffer ++ buffer
  let e := { e with overflowBuffer := [] }
  if last then
    let padded := buffer ++ List.replicate (roundToBlock buffer.length - buffer.length) 0
    let (data, e) := e.aesData c padded
    (data.take buffer.length, e)
  else
    let size := roundToBlockDown buffer.length
    let e :=
      if size ≠ buffer.length then
        { e with overflowBuffer := appendRaw e.overflowBuffer (buffer.drop size) }
      else e
    e.aesData c (buffer.take size)

/-- `Aes` of a string. -/
def aesString (c : Cipher) (buffer : List UInt8) (e : TEncryption) : List UInt8 × TEncryption :=
  let padded := buffer ++ List.replicate (roundToBlock buffer.length - buffer.length) 0
  let (data, e) := e.aesData c padded
  (data.take buffer.length, e)

/-- `Encrypt` -/
def encrypt (c : Cipher) (drawn : Salt) (buffer : List UInt8) (last : Bool) (e : TEncryption) :
    Except EncryptionError (List UInt8 × TEncryption) := do
  let e ← e.needSalt drawn
  let (buffer, e) := e.aesBuffer c buffer last
  if e.outputtedHeader then return (buffer, e)
  return (aesCtrMagic ++ e.salt ++ buffer, { e with outputtedHeader := true })

/-- The part of `Decrypt` that takes the header off. -/
def readHeader (buffer : List UInt8) (e : TEncryption) :
    Except EncryptionError (List UInt8 × TEncryption) := do
  if getOverhead ≤ e.inputHeader.length then return (buffer, e)
  let headerSize := min (getOverhead - e.inputHeader.length) buffer.length
  let e := { e with inputHeader := appendRaw e.inputHeader (buffer.take headerSize) }
  let buffer := buffer.drop headerSize
  if e.inputHeader.length < getOverhead then return (buffer, e)
  if cstr (e.inputHeader.take aesCtrMagic.length) ≠ cstr aesCtrMagic then
    throw .unknownFileEncryption
  let salt := (e.inputHeader.drop aesCtrMagic.length).take (saltLength passwordManagerAesMode)
  let e ← setSalt { e with salt := salt }
  return (buffer, e)

/-- `Decrypt` -/
def decrypt (c : Cipher) (buffer : List UInt8) (e : TEncryption) :
    Except EncryptionError (List UInt8 × TEncryption) := do
  let (buffer, e) ← e.readHeader buffer
  if buffer.isEmpty then return (buffer, e)
  return e.aesBuffer c buffer false

/-- `DecryptEnd`: what it puts into the buffer, which is empty when it says that
there is nothing. -/
def decryptEnd (c : Cipher) (e : TEncryption) : List UInt8 :=
  if e.overflowBuffer.isEmpty then [] else (e.aesBuffer c [] true).1

/-- All blocks of a file through `Encrypt`; the last one is flagged. -/
def encryptBlocks (c : Cipher) (drawn : Salt) :
    List (List UInt8) → TEncryption → Except EncryptionError (List UInt8)
  | [], _ => .ok []
  | block :: blocks, e => do
    let (block, e) ← e.encrypt c drawn block blocks.isEmpty
    let rest ← encryptBlocks c drawn blocks e
    return block ++ rest

/-- All blocks of a file through `Decrypt`, and `DecryptEnd` behind them. -/
def decryptBlocks (c : Cipher) :
    List (List UInt8) → TEncryption → Except EncryptionError (List UInt8)
  | [], e => .ok (e.decryptEnd c)
  | block :: blocks, e => do
    let (block, e) ← e.decrypt c block
    let rest ← decryptBlocks c blocks e
    return block ++ rest

end TEncryption

/-! ## Files -/

/-- What is asked of the encryption of a file that is given in `blocks`: it is
longer by the overhead only, and however it is cut it is decrypted. -/
def StreamsBack (c : Cipher) (key : List UInt8) (drawn : Salt) (blocks : List (List UInt8)) :
    Prop :=
  ∃ encrypted, (TEncryption.new key).encryptBlocks c drawn blocks = .ok encrypted ∧
    encrypted.length = blocks.flatten.length + getOverhead ∧
    ∀ pieces : List (List UInt8), pieces.flatten = encrypted →
      (TEncryption.new key).decryptBlocks c pieces = .ok blocks.flatten

namespace TEncryption

theorem needSalt_of_empty (drawn : Salt) {e : TEncryption} (h : e.salt = []) :
    e.needSalt drawn = .error .indexOutOfRange := by
  rw [needSalt, h]
  rfl

theorem encrypt_of_empty (c : Cipher) (drawn : Salt) (buffer : List UInt8) (last : Bool)
    {e : TEncryption} (h : e.salt = []) :
    e.encrypt c drawn buffer last = .error .indexOutOfRange := by
  rw [encrypt, needSalt_of_empty drawn h]
  rfl

end TEncryption

/-- No file is encrypted: the first block that a new object is given throws. -/
theorem not_streamsBack (c : Cipher) (key : List UInt8) (drawn : Salt)
    (blocks : List (List UInt8)) : ¬ StreamsBack c key drawn blocks := by
  rintro ⟨encrypted, hrun, hlen, -⟩
  cases blocks with
  | nil =>
    cases hrun
    cases hlen
  | cons block blocks =>
    rw [TEncryption.encryptBlocks, TEncryption.encrypt_of_empty c drawn block _ rfl] at hrun
    cases hrun

theorem encryptBlocks_hi :
    (TEncryption.new (List.replicate 32 1)).encryptBlocks (fun _ _ _ => 0) sevenSalt
      [[104, 105]] = .error .indexOutOfRange := rfl

/-! ## File names -/

/-- The digits of base 64. -/
def base64Digit (n : Nat) : WChar :=
  if n < 26 then (65 + n).toUInt16
  else if n < 52 then (97 + (n - 26)).toUInt16
  else if n < 62 then (48 + (n - 52)).toUInt16
  else if n = 62 then 43
  else slash

/-- `EncodeBase64`, that is `EVP_EncodeBlock`. -/
def encodeBase64 : List UInt8 → UnicodeString
  | [] => []
  | [a] => [base64Digit (a.toNat / 4), base64Digit (a.toNat % 4 * 16), 61, 61]
  | [a, b] => [base64Digit (a.toNat / 4), base64Digit (a.toNat % 4 * 16 + b.toNat / 16),
      base64Digit (b.toNat % 16 * 4), 61]
  | a :: b :: c :: rest =>
    base64Digit (a.toNat / 4) :: base64Digit (a.toNat % 4 * 16 + b.toNat / 16) ::
      base64Digit (b.toNat % 16 * 4 + c.toNat / 64) :: base64Digit (c.toNat % 64) ::
      encodeBase64 rest

/-- `DecodeBase64`, which is not implemented. -/
def decodeBase64 (_ : UnicodeString) : Except EncryptionError (List UInt8) :=
  .error (.notImplemented 3135)

/-- `ReplaceChar` -/
def replaceChar (a b : WChar) (str : UnicodeString) : UnicodeString :=
  (uptoNul str).map (fun ch => if ch = a then b else ch) ++ str.drop (uptoNul str).length

/-- `ReplaceStr` of a line break by nothing. -/
def removeLineBreaks : UnicodeString → UnicodeString
  | 13 :: 10 :: str => removeLineBreaks str
  | ch :: str => ch :: removeLineBreaks str
  | [] => []

/-- `EndsStr` -/
def endsStr (sub str : UnicodeString) : Bool := sub.isSuffixOf str

namespace TEncryption

def isEncryptedFileName (fileName : UnicodeString) : Bool := endsStr aesCtrExt fileName

/-- `EncryptFileName` -/
def encryptFileName (c : Cipher) (drawn : Salt) (fileName : UnicodeString) (e : TEncryption) :
    Except EncryptionError (UnicodeString × TEncryption) := do
  let e ← e.needSalt drawn
  let (buffer, e) := e.aesString c (Utf8.encode fileName)
  let base64 := removeLineBreaks (replaceChar slash 95 (encodeBase64 (e.salt ++ buffer)))
  return ((base64.reverse.dropWhile (· == 61)).reverse ++ aesCtrExt, e)

/-- `DecryptFileName` -/
def decryptFileName (c : Cipher) (r : Utf8Reader) (fileName : UnicodeString) (e : TEncryption) :
    Except EncryptionError (UnicodeString × TEncryption) := do
  if !isEncryptedFileName fileName then throw .notEncryptedFileName
  let base64 := replaceChar 95 slash (leftStr fileName (fileName.length - aesCtrExt.length))
  let padding := 4 - base64.length % 4
  let base64 := if padding < 4 then base64 ++ List.replicate padding 61 else base64
  let buffer ← decodeBase64 base64
  let salt := buffer.take (saltLength passwordManagerAesMode)
  let e ← setSalt { e with salt := salt }
  let (name, e) := e.aesString c (buffer.drop salt.length)
  return (r.toText name, e)

end TEncryption

/-- What is asked of a file name that one object encrypts and another decrypts. -/
def NamesBack (c : Cipher) (r : Utf8Reader) (e d : TEncryption) (drawn : Salt)
    (fileName : UnicodeString) : Prop :=
  ∃ name e', e.encryptFileName c drawn fileName = .ok (name, e') ∧
    TEncryption.isEncryptedFileName name = true ∧ slash ∉ name ∧
    ∃ d', d.decryptFileName c r name = .ok (fileName, d')

theorem TEncryption.encryptFileName_of_empty (c : Cipher) (drawn : Salt)
    (fileName : UnicodeString) {e : TEncryption} (h : e.salt = []) :
    e.encryptFileName c drawn fileName = .error .indexOutOfRange := by
  rw [encryptFileName, needSalt_of_empty drawn h]
  rfl

/-- The decoder of base 64 that `DecryptFileName` calls is not implemented. -/
theorem TEncryption.decryptFileName_error (c : Cipher) (r : Utf8Reader) (name : UnicodeString)
    (d : TEncryption) : ∃ err, d.decryptFileName c r name = .error err := by
  rw [decryptFileName]
  cases isEncryptedFileName name with
  | false => exact ⟨.notEncryptedFileName, rfl⟩
  | true => exact ⟨.notImplemented 3135, rfl⟩

/-- No file name comes back, whatever state the objects are in. -/
theorem not_namesBack (c : Cipher) (r : Utf8Reader) (e d : TEncryption) (drawn : Salt)
    (fileName : UnicodeString) : ¬ NamesBack c r e d drawn fileName := by
  rintro ⟨name, -, -, -, -, d', hback⟩
  obtain ⟨err, herr⟩ := TEncryption.decryptFileName_error c r name d
  rw [herr] at hback
  cases hback

theorem readme_not_namesBack :
    ¬ NamesBack (fun _ _ _ => 0) utf8Reader (.new (List.replicate 32 1))
      (.new (List.replicate 32 1)) sevenSalt (wstr "readme.txt") := by
  rintro ⟨name, e', hname, -⟩
  rw [TEncryption.encryptFileName_of_empty _ _ _ rfl] at hname
  cases hname

end NetBox.Crypto
