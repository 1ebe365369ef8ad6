import NetBox.Crypto.Fcrypt

/-! # The keys of a password are those of PBKDF2

`derive_key` keeps three HMAC contexts: one that has been given the password, one that has
been given the salt as well, and one that a round works with and that is copied over again
before the next one. What they compute is the function of RFC 2898.
-/
namespace NetBox.Crypto

open List

/-- The bytes of a password. The length of a text is an `int32_t`, so `klen` of a context
that was given a password is never `HMAC_IN_DATA`. -/
def Password : Type := { bytes : List UInt8 // bytes.length < 2 ^ 31 }

def xorBytes (a b : List UInt8) : List UInt8 := List.zipWith (· ^^^ ·) a b

/-- The four octets of a block's number, the most significant first. -/
def blockNumber (i : Nat) : List UInt8 :=
  [(i / 0x1000000).toUInt8, (i / 0x10000).toUInt8, (i / 0x100).toUInt8, i.toUInt8]

section
variable (p : Primitives) (pwd message : List UInt8)

/-- The values `U_1`, `U_2`, … of RFC 2898, here counted from 0. -/
def pbkdf2U : Nat → List UInt8
  | 0 => hmac p pwd message
  | j + 1 => hmac p pwd (pbkdf2U j)

/-- The sum of the first values, one more than the number says. -/
def pbkdf2T : Nat → List UInt8
  | 0 => pbkdf2U p pwd message 0
  | j + 1 => xorBytes (pbkdf2T j) (pbkdf2U p pwd message (j + 1))

end

/-- PBKDF2 with HMAC-SHA1, for at least one iteration: the blocks that the key needs, and
of the last one what fits. -/
def pbkdf2 (p : Primitives) (pwd salt : List UInt8) (iter keyLen : Nat) : List UInt8 :=
  ((List.range ((keyLen + outBlockLength - 1) / outBlockLength)).flatMap fun i =>
    pbkdf2T p pwd (salt ++ blockNumber (i + 1)) (iter - 1)).take keyLen

variable (p : Primitives) {pwd message : List UInt8}

theorem length_hmac (key message : List UInt8) : (hmac p key message).length = 20 :=
  p.length_sha1 _

/-- What a round reads out of a context in its data phase. -/
theorem hmacSha1End_block : hmacSha1End p outBlockLength (inData p pwd message) =
    hmac p pwd message := by
  rw [hmacSha1End_inData, take_of_length_le]
  exact Nat.le_of_eq (length_hmac p pwd message)

/-- The rounds behind the first one go on with the sum. -/
theorem mixKey_rounds (h : pwd.length < hmacInData) (n j : Nat) :
    mixKey p (hmacSha1Key pwd {}) n (pbkdf2U p pwd message j) (hmacSha1Key pwd {})
      (pbkdf2T p pwd message j) = pbkdf2T p pwd message (j + n) := by
  induction n generalizing j with
  | zero => rfl
  | succ n ih =>
    have hround : hmacSha1End p outBlockLength
        (hmacSha1Data p (pbkdf2U p pwd message j) (hmacSha1Key pwd {})) =
          pbkdf2U p pwd message (j + 1) := by
      rw [hmacSha1Data_key p h, hmacSha1End_block]
      rfl
    rw [mixKey, hround]
    exact (ih (j + 1)).trans (congrArg _ (by omega))

theorem xorBytes_zero (bytes : List UInt8) :
    xorBytes (List.replicate bytes.length 0) bytes = bytes := by
  induction bytes with
  | nil => rfl
  | cons b bytes ih =>
    rw [length_cons, replicate_succ, xorBytes, zipWith_cons_cons, ← xorBytes, ih,
      UInt8.zero_xor]

/-- The first round goes on from the context that was given the salt. -/
theorem mixKey_block (h : pwd.length < hmacInData) (salt number : List UInt8) (n : Nat) :
    mixKey p (hmacSha1Key pwd {}) (n + 1) number (hmacSha1Data p salt (hmacSha1Key pwd {}))
      (List.replicate outBlockLength 0) = pbkdf2T p pwd (salt ++ number) n := by
  have hround : hmacSha1End p outBlockLength
      (hmacSha1Data p number (hmacSha1Data p salt (hmacSha1Key pwd {}))) =
        pbkdf2U p pwd (salt ++ number) 0 := by
    rw [hmacSha1Data_key p h, hmacSha1Data_inData, hmacSha1End_block]
    rfl
  have hfirst : xorBytes (List.replicate outBlockLength 0) (pbkdf2U p pwd (salt ++ number) 0) =
      pbkdf2T p pwd (salt ++ number) 0 := by
    rw [show outBlockLength = _ from (length_hmac p pwd (salt ++ number)).symm]
    exact xorBytes_zero _
  rw [mixKey, hround, ← xorBytes, hfirst]
  exact (mixKey_rounds p h n 0).trans (congrArg _ (Nat.zero_add n))

/-- `derive_key` is PBKDF2. -/
theorem deriveKey_eq_pbkdf2 (pwd : Password) (salt : List UInt8) (iter keyLen : Nat)
    (hiter : 1 ≤ iter) (hkey : 1 ≤ keyLen) :
    deriveKey p pwd.1 salt iter keyLen = pbkdf2 p pwd.1 salt iter keyLen := by
  obtain ⟨n, rfl⟩ := Nat.exists_eq_add_of_le' hiter
  have hlength : pwd.1.length < hmacInData := Nat.lt_trans pwd.2 (by decide)
  have hblocks : 1 + (keyLen - 1) / outBlockLength =
      (keyLen + outBlockLength - 1) / outBlockLength := by
    simp only [outBlockLength]
    omega
  simp only [deriveKey, pbkdf2, hblocks, mixKey_block p hlength, Nat.add_sub_cancel]
  rfl

theorem deriveKey_eq_pbkdf2_long : deriveKey zeroPrimitives (List.replicate 65 1) [] 3 21 =
    pbkdf2 zeroPrimitives (List.replicate 65 1) [] 3 21 :=
  deriveKey_eq_pbkdf2 zeroPrimitives ⟨List.replicate 65 1, by decide⟩ [] 3 21 (by decide) (by decide)

end NetBox.Crypto
