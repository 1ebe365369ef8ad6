import Mathlib.Data.List.Basic

/-! # Words as bytes, high byte first

The layout of 32-bit words in network protocols, and messages that carry
their length in front.
-/
namespace NetBox.Lib.Bytes

/-- The word whose bytes are `a`, `b`, `c`, `d` from the highest down. -/
def get32 (a b c d : UInt8) : UInt32 :=
  (a.toUInt32 <<< 24) ||| (b.toUInt32 <<< 16) ||| (c.toUInt32 <<< 8) ||| d.toUInt32

def put32 (v : UInt32) : List UInt8 :=
  [(v >>> 24).toUInt8, (v >>> 16).toUInt8, (v >>> 8).toUInt8, v.toUInt8]

theorem get32_put32 (v : UInt32) :
    get32 (v >>> 24).toUInt8 (v >>> 16).toUInt8 (v >>> 8).toUInt8 v.toUInt8 = v := by
  apply UInt32.toBitVec_inj.mp
  apply BitVec.eq_of_getLsbD_eq
  intro i hi
  -- bit i of the word comes from the byte that holds it, from no other
  simp only [get32, UInt32.toBitVec_or, UInt32.toBitVec_shiftLeft, UInt8.toBitVec_toUInt32,
    UInt32.toBitVec_toUInt8, UInt32.toBitVec_shiftRight, BitVec.getLsbD_or]
  simp
  grind

/-- A message with its length in front. -/
def frame (payload : List UInt8) : List UInt8 :=
  put32 payload.length.toUInt32 ++ payload

end NetBox.Lib.Bytes
