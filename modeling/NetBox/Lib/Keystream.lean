import Mathlib.Data.List.Basic

/-! # Stream ciphers

A generator hands out one byte of key after another. A text is encrypted by
combining each of its bytes with the next byte of the key, and decrypted by the
same step from the same state of the generator.
-/
namespace NetBox.Lib.Keystream

variable {σ : Type} (next : σ → UInt8 × σ)

/-- The text combined with the key, and the state of the generator behind it. -/
def xorStream : List UInt8 → σ → List UInt8 × σ
  | [], s => ([], s)
  | b :: text, s =>
    ((b ^^^ (next s).1) :: (xorStream text (next s).2).1, (xorStream text (next s).2).2)

@[simp] theorem length_xorStream (text : List UInt8) (s : σ) :
    (xorStream next text s).1.length = text.length := by
  induction text generalizing s with
  | nil => rfl
  | cons b text ih => rw [xorStream, List.length_cons, ih, List.length_cons]

/-- The second time gives the text back, and moves the generator as the first
time did. -/
theorem xorStream_xorStream (text : List UInt8) (s : σ) :
    xorStream next (xorStream next text s).1 s = (text, (xorStream next text s).2) := by
  induction text generalizing s with
  | nil => rfl
  | cons b text ih =>
    have hb : b ^^^ (next s).1 ^^^ (next s).1 = b := by
      rw [UInt8.xor_assoc, UInt8.xor_self, UInt8.xor_zero]
    rw [xorStream, xorStream, hb, ih]

/-- A generator that another one follows step by step makes the same key. -/
theorem xorStream_map {τ : Type} {next : σ → UInt8 × σ} {next' : τ → UInt8 × τ} {f : σ → τ}
    (h : ∀ s, next' (f s) = ((next s).1, f (next s).2)) (text : List UInt8) (s : σ) :
    xorStream next' text (f s) =
      ((xorStream next text s).1, f (xorStream next text s).2) := by
  induction text generalizing s with
  | nil => rfl
  | cons b text ih => rw [xorStream, h, ih, xorStream]

end NetBox.Lib.Keystream
