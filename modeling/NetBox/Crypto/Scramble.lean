import NetBox.Session.Password
import NetBox.Base.Number
import Mathlib.Data.Nat.Find

/-! # Scrambling of the master password

`ScramblePassword` and `UnscramblePassword` of Cryptography.cpp. A text is padded
in front to a multiple of seventeen bytes, its length stands behind the padding in
three digits, and every byte is replaced by a table at a place that depends on all
bytes before it.
-/
namespace NetBox.Crypto

open Base.Text Lib Session List

/-- `SScrambleTable` -/
def scrambleTable : List UInt8 := [
  0, 223, 235, 233, 240, 185, 88, 102, 22, 130, 27, 53, 79, 125, 66, 201,
  90, 71, 51, 60, 134, 104, 172, 244, 139, 84, 91, 12, 123, 155, 237, 151,
  192, 6, 87, 32, 211, 38, 149, 75, 164, 145, 52, 200, 224, 226, 156, 50,
  136, 190, 232, 63, 129, 209, 181, 120, 28, 99, 168, 94, 198, 40, 238, 112,
  55, 217, 124, 62, 227, 30, 36, 242, 208, 138, 174, 231, 26, 54, 214, 148,
  37, 157, 19, 137, 187, 111, 228, 39, 110, 17, 197, 229, 118, 246, 153, 80,
  21, 128, 69, 117, 234, 35, 58, 67, 92, 7, 132, 189, 5, 103, 10, 15,
  252, 195, 70, 147, 241, 202, 107, 49, 20, 251, 133, 76, 204, 73, 203, 135,
  184, 78, 194, 183, 1, 121, 109, 11, 143, 144, 171, 161, 48, 205, 245, 46,
  31, 72, 169, 131, 239, 160, 25, 207, 218, 146, 43, 140, 127, 255, 81, 98,
  42, 115, 173, 142, 114, 13, 2, 219, 57, 56, 24, 126, 3, 230, 47, 215,
  9, 44, 159, 33, 249, 18, 93, 95, 29, 113, 220, 89, 97, 182, 248, 64,
  68, 34, 4, 82, 74, 196, 213, 165, 179, 250, 108, 254, 59, 14, 236, 175,
  85, 199, 83, 106, 77, 178, 167, 225, 45, 247, 163, 158, 8, 221, 61, 191,
  119, 16, 253, 105, 186, 23, 170, 100, 216, 65, 162, 122, 150, 176, 154, 193,
  206, 222, 188, 152, 210, 243, 96, 41, 86, 180, 101, 177, 166, 141, 212, 116]

/-- `UnscrambleTable`, as `CryptographyInitialize` fills it. -/
def unscrambleTable : List UInt8 :=
  (List.range 256).foldl
    (fun table index => table.set (scrambleTable.getD index 0).toNat index.toUInt8)
    (List.replicate 256 0)

/-- A number that the padding may hold. -/
def isPadding (n : Nat) : Bool := 0 < n && n ≤ 255 && !isDigit n.toUInt16

/-- A random generator that never stops to draw numbers which the padding may
hold. -/
structure Draws where
  draw : Nat → Nat
  recurs : ∀ n, ∃ k, isPadding (random (draw (n + k)) 256) = true

/-- The loop that draws one byte of the padding, from the `n`-th number on: the
byte, and how many numbers are drawn by then. -/
def Draws.next (g : Draws) (n : Nat) : UInt8 × Nat :=
  let k := Nat.find (g.recurs n)
  ((random (g.draw (n + k)) 256).toUInt8, n + k + 1)

/-- That many bytes of padding. -/
def Draws.padding (g : Draws) : Nat → Nat → List UInt8
  | 0, _ => []
  | count + 1, n => (g.next n).1 :: Draws.padding g count (g.next n).2

/-- The size of a buffer for a text of that length, with its padding. -/
def scrambledLength (len : Nat) : Nat := (len + 3) / 17 * 17 + 17

/-- `strcpy_s` to a cleared buffer: the C string that is stored there. A string
that does not fit with its zero byte is not stored at all. -/
def strcpyS (size : Nat) (source : List UInt8) : List UInt8 :=
  if (cstr source).length < size then cstr source else []

/-- The digits of a length, the last one first. -/
def lengthDigits (len : Nat) : List UInt8 :=
  [(48 + len % 10).toUInt8, (48 + len / 10 % 10).toUInt8, (48 + len / 100 % 10).toUInt8]

/-- The loop that scrambles a C string. -/
def scrambleBytes : Nat → List UInt8 → List UInt8
  | _, [] => []
  | last, b :: s =>
    let last := (last + b.toNat) % 255 + 1
    scrambleTable.getD last 0 :: scrambleBytes last s

/-- `ScramblePassword` -/
def scramblePassword (g : Draws) (password : UnicodeString) : List UInt8 :=
  let utf := Utf8.encode password
  let len := utf.length
  let padding := scrambledLength len - 3 - len
  let buf := g.padding padding 0 ++ lengthDigits len ++ strcpyS len utf
  cstr (scrambleBytes 31 (cstr buf))

/-- The loop that undoes `scrambleBytes`. -/
def unscrambleBytes : Nat → List UInt8 → List UInt8
  | _, [] => []
  | last, b :: s =>
    let x : Int := (unscrambleTable.getD b.toNat 0).toNat - 1 - (last % 255 : Nat)
    let x := if x ≤ 0 then x + 255 else x
    x.toNat.toUInt8 :: unscrambleBytes ((last + x.toNat) % 255 + 1) s

/-- The value of a `char`. -/
def charValue (b : UInt8) : Int := if b.toNat < 128 then b.toNat else b.toNat - 256

/-- What is skipped in front of the length. -/
def isSkipped (b : UInt8) : Bool := charValue b < 48 || 57 < charValue b

/-- `UnscramblePassword`: whether the text is one, and its password. -/
def unscramblePassword (r : Utf8Reader) (scrambled : List UInt8) : Bool × UnicodeString :=
  let head := cstr scrambled
  let plain := unscrambleBytes 31 head ++ scrambled.drop head.length
  let s := (cstr plain).dropWhile isSkipped
  match s with
  | a :: b :: c :: _ =>
    let len : Int := (charValue a - 48) + 10 * (charValue b - 48) + 100 * (charValue c - 48)
    let total : Int := (len + 3).tdiv 17 * 17 + 17
    let start := (cstr plain).length - s.length
    if 0 ≤ len ∧ total = plain.length ∧ total - start - 3 = len then
      (true, r.toText (plain.drop (plain.length - len.toNat)))
    else (false, [])
  | _ => (false, [])

/-! ## The table and the chain of bytes -/

theorem unscrambleTable_scrambled {n : Nat} (h0 : 0 < n) (h : n ≤ 255) :
    (unscrambleTable.getD (scrambleTable.getD n 0).toNat 0).toNat = n ∧
      scrambleTable.getD n 0 ≠ 0 := by
  have hall : ∀ n : Fin 256, 0 < n.val →
      (unscrambleTable.getD (scrambleTable.getD n.val 0).toNat 0).toNat = n.val ∧
        scrambleTable.getD n.val 0 ≠ 0 := by decide +kernel
  exact hall ⟨n, by omega⟩ h0

theorem scrambled_place (last : Nat) (b : UInt8) :
    0 < (last + b.toNat) % 255 + 1 ∧ (last + b.toNat) % 255 + 1 ≤ 255 := by omega

theorem zero_notMem_scrambleBytes (last : Nat) (s : List UInt8) :
    0 ∉ scrambleBytes last s := by
  induction s generalizing last with
  | nil => exact not_mem_nil
  | cons b s ih =>
    obtain ⟨h0, h⟩ := scrambled_place last b
    rw [scrambleBytes, mem_cons, not_or]
    exact ⟨(unscrambleTable_scrambled h0 h).2.symm, ih _⟩

/-- The chain is undone from its first byte on. -/
theorem unscrambleBytes_scrambled (last : Nat) {s : List UInt8} (h : 0 ∉ s) :
    unscrambleBytes last (scrambleBytes last s) = s := by
  induction s generalizing last with
  | nil => rfl
  | cons b s ih =>
    obtain ⟨hb, hs⟩ := not_or.mp (mt mem_cons.mpr h)
    have hpos : 0 < b.toNat := Nat.pos_of_ne_zero fun h0 => hb (UInt8.toNat_inj.mp h0).symm
    have hlt := b.toNat_lt
    obtain ⟨h0, hle⟩ := scrambled_place last b
    rw [scrambleBytes, unscrambleBytes, (unscrambleTable_scrambled h0 hle).1]
    have hx : (if (((last + b.toNat) % 255 + 1 : Nat) : Int) - 1 - (last % 255 : Nat) ≤ 0
        then (((last + b.toNat) % 255 + 1 : Nat) : Int) - 1 - (last % 255 : Nat) + 255
        else (((last + b.toNat) % 255 + 1 : Nat) : Int) - 1 - (last % 255 : Nat)) = b.toNat := by
      split <;> omega
    simp only [hx, Int.toNat_natCast]
    rw [ih _ hs]
    simp

/-! ## The padding -/

theorem toUInt8_of_isPadding {n : Nat} (h : isPadding n = true) :
    n.toUInt8 ≠ 0 ∧ isSkipped n.toUInt8 = true := by
  have hall : ∀ n : Fin 256, isPadding n.val = true →
      n.val.toUInt8 ≠ 0 ∧ isSkipped n.val.toUInt8 = true := by decide +kernel
  have hle : n ≤ 255 := by
    simp only [isPadding, Bool.and_eq_true, decide_eq_true_eq] at h
    exact h.1.2
  exact hall ⟨n, by omega⟩ h

theorem Draws.length_padding (g : Draws) (count n : Nat) :
    (g.padding count n).length = count := by
  induction count generalizing n with
  | zero => rfl
  | succ count ih => rw [Draws.padding, length_cons, ih]

theorem Draws.mem_padding (g : Draws) {count n : Nat} {b : UInt8} (h : b ∈ g.padding count n) :
    b ≠ 0 ∧ isSkipped b = true := by
  induction count generalizing n with
  | zero => cases h
  | succ count ih =>
    rcases mem_cons.mp h with rfl | h
    · exact toUInt8_of_isPadding (Nat.find_spec (g.recurs n))
    · exact ih h

/-! ## The length and the text behind the padding -/

theorem lengthDigits_spec {len : Nat} (h : len ≤ 999) :
    ∃ a b c, lengthDigits len = [a, b, c] ∧ a ≠ 0 ∧ b ≠ 0 ∧ c ≠ 0 ∧ isSkipped a = false ∧
      (charValue a - 48) + 10 * (charValue b - 48) + 100 * (charValue c - 48) = len := by
  have hdigit : ∀ n : Fin 10, (48 + n.val).toUInt8 ≠ 0 ∧
      isSkipped (48 + n.val).toUInt8 = false ∧ charValue (48 + n.val).toUInt8 = 48 + n.val := by
    decide
  obtain ⟨ha0, ha, hav⟩ := hdigit ⟨len % 10, by omega⟩
  obtain ⟨hb0, -, hbv⟩ := hdigit ⟨len / 10 % 10, by omega⟩
  obtain ⟨hc0, -, hcv⟩ := hdigit ⟨len / 100 % 10, by omega⟩
  refine ⟨_, _, _, rfl, ha0, hb0, hc0, ha, ?_⟩
  simp only at hav hbv hcv
  rw [hav, hbv, hcv]
  omega

/-- What is read of a scrambled buffer whose text is `stored`, under a length that
is another one perhaps. -/
theorem unscramblePassword_buffer (r : Utf8Reader) {front stored : List UInt8} {len : Nat}
    (hfront : ∀ b ∈ front, b ≠ 0 ∧ isSkipped b = true) (hstored : 0 ∉ stored) (hlen : len ≤ 999) :
    unscramblePassword r (cstr (scrambleBytes 31 (cstr (front ++ lengthDigits len ++ stored)))) =
      if scrambledLength len = front.length + 3 + stored.length ∧ stored.length = len then
        (true, r.toText stored)
      else (false, []) := by
  obtain ⟨a, b, c, hdigits, ha, hb, hc, hskip, hvalue⟩ := lengthDigits_spec hlen
  have hzero : 0 ∉ front ++ lengthDigits len ++ stored := by
    rw [hdigits]
    simp only [mem_append, mem_cons, not_mem_nil, or_false, not_or]
    exact ⟨⟨fun h => (hfront 0 h).1 rfl, ha.symm, hb.symm, hc.symm⟩, hstored⟩
  rw [cstr_eq hzero, cstr_eq (zero_notMem_scrambleBytes _ _), unscramblePassword,
    cstr_eq (zero_notMem_scrambleBytes _ _), unscrambleBytes_scrambled _ hzero, drop_length,
    append_nil, cstr_eq hzero]
  have hdrop : (front ++ lengthDigits len ++ stored).dropWhile isSkipped =
      a :: b :: c :: stored := by
    rw [hdigits, append_assoc, dropWhile_append_of_pos fun b h => (hfront b h).2]
    simp [hskip]
  rw [hdrop]
  have hplain : (front ++ lengthDigits len ++ stored).length =
      front.length + 3 + stored.length := by
    rw [length_append, length_append, hdigits]
    rfl
  have htotal : ((len : Int) + 3).tdiv 17 * 17 + 17 = scrambledLength len := by
    rw [scrambledLength, Int.tdiv_eq_ediv_of_nonneg (by omega)]
    omega
  simp only [hvalue, htotal, hplain, length_cons, Int.toNat_natCast]
  by_cases h : scrambledLength len = front.length + 3 + stored.length ∧ stored.length = len
  · rw [if_pos h, if_pos (by omega)]
    have hback : front.length + 3 + stored.length - len = (front ++ lengthDigits len).length := by
      rw [length_append, hdigits]
      exact (Nat.sub_eq_of_eq_add (by rw [h.2]; rfl))
    rw [hback, drop_left]
  · rw [if_neg h, if_neg (by omega)]

/-- The buffer of `ScramblePassword` has room for the text, but `strcpy_s` is told
one byte less than it needs. -/
theorem strcpyS_length {bytes : List UInt8} (h : 0 ∉ bytes) : strcpyS bytes.length bytes = [] := by
  rw [strcpyS, cstr_eq h, if_neg (Nat.lt_irrefl _)]

/-- A scrambled password comes back exactly when it is empty. -/
theorem unscramblePassword_iff (r : Utf8Reader) (g : Draws) {password : UnicodeString}
    (hzero : 0 ∉ Utf8.encode password) (hlen : (Utf8.encode password).length ≤ 999) :
    unscramblePassword r (scramblePassword g password) = (true, password) ↔ password = [] := by
  rw [scramblePassword, strcpyS_length hzero,
    unscramblePassword_buffer r (fun _ => g.mem_padding) List.not_mem_nil hlen,
    g.length_padding, List.length_nil]
  constructor
  · intro h
    split at h
    next hlength => exact Utf8.encode_eq_nil.mp (List.length_eq_zero_iff.mp hlength.2.symm)
    next => cases h
  · rintro rfl
    rw [if_pos ⟨rfl, rfl⟩, toText_nil]

/-- A generator that draws one number all the time. -/
def steadyDraws : Draws where
  draw _ := 1000000000
  recurs _ := ⟨0, by decide⟩

theorem unscramblePassword_iff_empty :
    unscramblePassword utf8Reader (scramblePassword steadyDraws []) = (true, []) :=
  (@unscramblePassword_iff utf8Reader steadyDraws [] List.not_mem_nil (Nat.zero_le _)).mpr rfl

theorem letter_not_unscrambled :
    unscramblePassword utf8Reader (scramblePassword steadyDraws (wstr "p")) = (false, []) := by
  have hzero : 0 ∉ Utf8.encode (wstr "p") := by decide
  rw [scramblePassword, strcpyS_length hzero,
    unscramblePassword_buffer utf8Reader (fun _ => steadyDraws.mem_padding) List.not_mem_nil
      (by decide), if_neg fun h => absurd h.2 (by decide)]

end NetBox.Crypto
