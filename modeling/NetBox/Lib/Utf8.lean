import Mathlib.Data.List.Basic

/-! # UTF-16 and UTF-8

A text of UTF-16 code units as its characters, and the bytes that stand for
them. A surrogate that is not half of a pair stands for no character and is read
as U+FFFD, so every text has bytes but only a well formed one comes back.
-/

namespace NetBox.Lib.Utf8

open List

/-- The code units of one character. -/
def units (c : Char) : List UInt16 :=
  if c.toNat < 0x10000 then [c.toNat.toUInt16]
  else [(0xD800 + (c.toNat - 0x10000) / 0x400).toUInt16,
    (0xDC00 + (c.toNat - 0x10000) % 0x400).toUInt16]

def isHigh (u : UInt16) : Bool := 0xD800 ≤ u.toNat && u.toNat < 0xDC00

def isLow (u : UInt16) : Bool := 0xDC00 ≤ u.toNat && u.toNat < 0xE000

def isSurrogate (u : UInt16) : Bool := isHigh u || isLow u

/-- What a surrogate on its own is read as. -/
def replacement : Char := Char.ofNat 0xFFFD

/-- The character of a code unit on its own. -/
def single (u : UInt16) : Char := if isSurrogate u then replacement else Char.ofNat u.toNat

/-- The character of a pair of surrogates. -/
def pair (u v : UInt16) : Char :=
  Char.ofNat (0x10000 + (u.toNat - 0xD800) * 0x400 + (v.toNat - 0xDC00))

def chars : List UInt16 → List Char
  | [] => []
  | [u] => [single u]
  | u :: v :: rest =>
    if isHigh u && isLow v then pair u v :: chars rest else single u :: chars (v :: rest)

/-- The bytes of a text. -/
def encode (text : List UInt16) : List UInt8 := (chars text).flatMap String.utf8EncodeChar

/-- The characters of a sequence of bytes. A byte that starts none of them is
read as U+FFFD. -/
def decodeChars : List UInt8 → List Char
  | [] => []
  | b :: bytes =>
    match (b :: bytes).toByteArray.utf8DecodeChar? 0 with
    | some c => c :: decodeChars ((b :: bytes).drop c.utf8Size)
    | none => replacement :: decodeChars bytes
termination_by bytes => bytes.length
decreasing_by
  · have := Char.utf8Size_pos c
    simp only [length_drop, length_cons]
    omega
  · simp

def decode (bytes : List UInt8) : List UInt16 := (decodeChars bytes).flatMap units

/-- A text in which every surrogate is half of a pair. -/
def WellFormed (text : List UInt16) : Prop := ∃ cs : List Char, text = cs.flatMap units

/-! ## Code units and characters -/

theorem toNat_ofNat {n : Nat} (h : n.isValidChar) : (Char.ofNat n).toNat = n := by
  rw [Char.ofNat, dif_pos h]
  rfl

theorem toNat_lt (c : Char) : c.toNat < 0x110000 := by
  rcases c.valid with h | h
  · exact Nat.lt_trans h (by decide)
  · exact h.2

theorem not_surrogate (c : Char) : c.toNat < 0xD800 ∨ 0xE000 ≤ c.toNat := by
  rcases c.valid with h | h
  · exact .inl h
  · exact .inr h.1

theorem toUInt16_toNat {n : Nat} (h : n < 0x10000) : n.toUInt16.toNat = n := by
  simp only [Nat.toUInt16, UInt16.toNat_ofNat']
  exact Nat.mod_eq_of_lt h

variable {u : UInt16} {text : List UInt16}

theorem isSurrogate_iff : isSurrogate u = true ↔ 0xD800 ≤ u.toNat ∧ u.toNat < 0xE000 := by
  simp only [isSurrogate, isHigh, isLow, Bool.or_eq_true, Bool.and_eq_true, decide_eq_true_eq]
  omega

theorem isHigh_iff : isHigh u = true ↔ 0xD800 ≤ u.toNat ∧ u.toNat < 0xDC00 := by
  simp [isHigh]

theorem isLow_iff : isLow u = true ↔ 0xDC00 ≤ u.toNat ∧ u.toNat < 0xE000 := by
  simp [isLow]

theorem units_replacement : units replacement = [0xFFFD] := by decide

theorem single_toNat (h : isSurrogate u = false) : (single u).toNat = u.toNat := by
  have hs := mt isSurrogate_iff.mpr (Bool.eq_false_iff.mp h)
  have hu := u.toNat_lt
  rw [single, h, if_neg Bool.false_ne_true, toNat_ofNat (by unfold Nat.isValidChar; omega)]

/-- A code unit that is no surrogate is the only one of its character. -/
theorem units_single (h : isSurrogate u = false) : units (single u) = [u] := by
  have hu := u.toNat_lt
  rw [units, single_toNat h, if_pos (by omega)]
  simp

theorem single_of_units {c : Char} (h : c.toNat < 0x10000) :
    single c.toNat.toUInt16 = c ∧ isSurrogate c.toNat.toUInt16 = false := by
  have hc := not_surrogate c
  have hs : isSurrogate c.toNat.toUInt16 = false := by
    rw [Bool.eq_false_iff]
    intro hs
    rw [isSurrogate_iff, toUInt16_toNat h] at hs
    omega
  rw [single, hs, toUInt16_toNat h]
  exact ⟨Char.ofNat_toNat c, rfl⟩

theorem pair_of_units {c : Char} (h : 0x10000 ≤ c.toNat) :
    isHigh (0xD800 + (c.toNat - 0x10000) / 0x400).toUInt16 = true ∧
      isLow (0xDC00 + (c.toNat - 0x10000) % 0x400).toUInt16 = true ∧
      pair (0xD800 + (c.toNat - 0x10000) / 0x400).toUInt16
        (0xDC00 + (c.toNat - 0x10000) % 0x400).toUInt16 = c := by
  have hc := toNat_lt c
  have hhigh : (0xD800 + (c.toNat - 0x10000) / 0x400).toUInt16.toNat =
      0xD800 + (c.toNat - 0x10000) / 0x400 := toUInt16_toNat (by omega)
  have hlow : (0xDC00 + (c.toNat - 0x10000) % 0x400).toUInt16.toNat =
      0xDC00 + (c.toNat - 0x10000) % 0x400 := toUInt16_toNat (by omega)
  rw [isHigh_iff, isLow_iff, pair, hhigh, hlow]
  refine ⟨by omega, by omega, ?_⟩
  have hsum : 0x10000 + (0xD800 + (c.toNat - 0x10000) / 0x400 - 0xD800) * 0x400 +
      (0xDC00 + (c.toNat - 0x10000) % 0x400 - 0xDC00) = c.toNat := by omega
  rw [hsum, Char.ofNat_toNat]

/-- A code unit that is no high surrogate is read on its own. -/
theorem chars_cons (h : isHigh u = false) (text : List UInt16) :
    chars (u :: text) = single u :: chars text := by
  cases text with
  | nil => rfl
  | cons v rest => rw [chars, h, Bool.false_and, if_neg (by decide)]

/-- The characters of a text are read back from their code units. -/
theorem chars_units (cs : List Char) : chars (cs.flatMap units) = cs := by
  induction cs with
  | nil => rfl
  | cons c cs ih =>
    rw [flatMap_cons, units]
    split
    next h =>
      obtain ⟨hsingle, hs⟩ := single_of_units h
      have hhigh := (Bool.or_eq_false_iff.mp hs).1
      rw [singleton_append, chars_cons hhigh, hsingle, ih]
    next h =>
      obtain ⟨hhigh, hlow, hpair⟩ := pair_of_units (Nat.le_of_not_lt h)
      rw [cons_append, singleton_append, chars, hhigh, hlow, Bool.and_self,
        if_pos rfl, hpair, ih]

/-! ## Bytes and characters -/

theorem decodeChars_append (c : Char) (bytes : List UInt8) :
    decodeChars (String.utf8EncodeChar c ++ bytes) = c :: decodeChars bytes := by
  have hlen := String.length_utf8EncodeChar c
  cases hcode : String.utf8EncodeChar c with
  | nil => exact absurd hcode (String.utf8EncodeChar_ne_nil)
  | cons b rest =>
    have hread : (b :: (rest ++ bytes)).toByteArray.utf8DecodeChar? 0 = some c := by
      rw [← cons_append, ← hcode, toByteArray_append]
      exact ByteArray.utf8DecodeChar?_utf8EncodeChar_append
    have hdrop : (b :: (rest ++ bytes)).drop c.utf8Size = bytes := by
      rw [← cons_append, ← hcode, ← hlen, drop_left]
    rw [cons_append, decodeChars, hread]
    simp only [hdrop]

theorem decodeChars_encode (cs : List Char) :
    decodeChars (cs.flatMap String.utf8EncodeChar) = cs := by
  induction cs with
  | nil => rw [flatMap_nil, decodeChars]
  | cons c cs ih => rw [flatMap_cons, decodeChars_append, ih]

theorem wellFormed_decode (bytes : List UInt8) : WellFormed (decode bytes) := ⟨_, rfl⟩

/-- A well formed text comes back from its characters. -/
theorem WellFormed.chars (h : WellFormed text) : (chars text).flatMap units = text := by
  obtain ⟨cs, rfl⟩ := h
  rw [chars_units]

instance (text : List UInt16) : Decidable (WellFormed text) :=
  decidable_of_iff ((chars text).flatMap units = text) ⟨fun h => ⟨_, h.symm⟩, WellFormed.chars⟩

/-- A text without surrogates is well formed. -/
theorem wellFormed_of_plain (h : ∀ u ∈ text, isSurrogate u = false) : WellFormed text := by
  refine ⟨text.map single, ?_⟩
  induction text with
  | nil => rfl
  | cons u text ih =>
    rw [map_cons, flatMap_cons, units_single (h u mem_cons_self),
      ← ih fun v hv => h v (mem_cons_of_mem _ hv), singleton_append]

/-! ## The zero byte -/

theorem ofNat_ne_zero {n : Nat} (h : n % 256 ≠ 0) : (0 : UInt8) ≠ UInt8.ofNat n := by
  intro he
  have hn := congrArg UInt8.toNat he
  rw [UInt8.toNat_ofNat', UInt8.toNat_zero] at hn
  exact h hn.symm

/-- Only U+0000 has a zero byte. -/
theorem zero_mem_utf8EncodeChar {c : Char} : 0 ∈ String.utf8EncodeChar c ↔ c.toNat = 0 := by
  rw [String.utf8EncodeChar, show c.val.toNat = c.toNat from rfl]
  split
  next h =>
    rw [mem_singleton]
    refine ⟨fun he => ?_, fun he => by rw [he]; rfl⟩
    have hn := congrArg UInt8.toNat he
    rw [UInt8.toNat_ofNat', UInt8.toNat_zero] at hn
    omega
  next h =>
    refine ⟨fun hmem => ?_, fun he => absurd he (by omega)⟩
    split at hmem
    · simp only [mem_cons, not_mem_nil, or_false] at hmem
      rcases hmem with hmem | hmem
      all_goals exact absurd hmem (ofNat_ne_zero (by omega))
    · split at hmem
      · simp only [mem_cons, not_mem_nil, or_false] at hmem
        rcases hmem with hmem | hmem | hmem
        all_goals exact absurd hmem (ofNat_ne_zero (by omega))
      · simp only [mem_cons, not_mem_nil, or_false] at hmem
        rcases hmem with hmem | hmem | hmem | hmem
        all_goals exact absurd hmem (ofNat_ne_zero (by omega))

theorem single_eq_zero : (single u).toNat = 0 ↔ u = 0 := by
  cases hs : isSurrogate u with
  | true =>
    have hu := isSurrogate_iff.mp hs
    rw [single, hs, if_pos rfl]
    exact ⟨fun hr => absurd hr (by decide), fun hu0 => absurd hu.1 (by rw [hu0]; decide)⟩
  | false => rw [single_toNat hs, ← UInt16.toNat_inj, UInt16.toNat_zero]

theorem pair_ne_zero {u v : UInt16} (hu : isHigh u = true) (hv : isLow v = true) :
    (pair u v).toNat ≠ 0 := by
  have hu := isHigh_iff.mp hu
  have hv := isLow_iff.mp hv
  rw [pair, toNat_ofNat (by unfold Nat.isValidChar; omega)]
  omega

theorem zero_mem_chars : (∃ c ∈ chars text, c.toNat = 0) ↔ 0 ∈ text := by
  fun_induction chars text with
  | case1 => simp
  | case2 u => simp [single_eq_zero, @eq_comm _ 0 u]
  | case3 u v rest h ih =>
    rw [Bool.and_eq_true] at h
    have hu : (0 : UInt16) ≠ u := by rintro rfl; exact absurd h.1 (by decide)
    have hv : (0 : UInt16) ≠ v := by rintro rfl; exact absurd h.2 (by decide)
    simp [pair_ne_zero h.1 h.2, ih, hu, hv]
  | case4 u v rest h ih => simp [single_eq_zero, ih, @eq_comm _ 0 u]

/-- The bytes of a text have a zero exactly where the text has one. -/
theorem zero_mem_encode : 0 ∈ encode text ↔ 0 ∈ text := by
  rw [encode, mem_flatMap, ← zero_mem_chars]
  exact exists_congr fun c => and_congr_right fun _ => zero_mem_utf8EncodeChar

theorem encode_eq_nil : encode text = [] ↔ text = [] := by
  refine ⟨fun h => ?_, fun h => by rw [h]; rfl⟩
  have hchars : chars text = [] := by
    rw [encode, flatMap_eq_nil_iff] at h
    refine eq_nil_iff_forall_not_mem.mpr fun c hc => ?_
    have hsize := Char.utf8Size_pos c
    rw [← String.length_utf8EncodeChar, h c hc] at hsize
    cases hsize
  match text, hchars with
  | [], _ => rfl
  | u :: v :: rest, hchars =>
    rw [chars] at hchars
    split at hchars <;> cases hchars

/-! ## ASCII -/

theorem one_lt_utf8Size {c : Char} (h : 128 ≤ c.toNat) : 1 < c.utf8Size := by
  have hne : c.utf8Size ≠ 1 := fun he =>
    absurd (UInt32.le_iff_toNat_le.mp (Char.utf8Size_eq_one_iff.mp he)) (Nat.not_le.mpr h)
  have hpos := Char.utf8Size_pos c
  omega

theorem isSurrogate_ascii (h : u.toNat < 128) : isSurrogate u = false := by
  rw [Bool.eq_false_iff, ne_eq, isSurrogate_iff]
  omega

theorem single_ascii (h : u.toNat < 128) : String.utf8EncodeChar (single u) = [u.toUInt8] := by
  rw [String.utf8EncodeChar,
    show (single u).val.toNat = u.toNat from single_toNat (isSurrogate_ascii h), if_pos (by omega)]
  rfl

theorem one_lt_utf8Size_single (h : 128 ≤ u.toNat) : 1 < (single u).utf8Size := by
  cases hs : isSurrogate u with
  | true => rw [single, hs, if_pos rfl]; decide
  | false => exact one_lt_utf8Size (by rwa [single_toNat hs])

/-- A text has no fewer bytes than code units, and as many only when it is ASCII. -/
theorem length_encode (text : List UInt16) : text.length ≤ (encode text).length ∧
    ((encode text).length ≤ text.length → ∀ u ∈ text, u.toNat < 128) := by
  have hsingle : ∀ u, 1 ≤ (single u).utf8Size ∧ ((single u).utf8Size ≤ 1 → u.toNat < 128) :=
    fun u => ⟨Char.utf8Size_pos _, fun h => Nat.lt_of_not_le fun hu =>
      absurd (one_lt_utf8Size_single hu) (Nat.not_lt.mpr h)⟩
  unfold encode
  fun_induction chars text with
  | case1 => simp
  | case2 u =>
    have hu := hsingle u
    simp only [flatMap_cons, flatMap_nil, append_nil, String.length_utf8EncodeChar,
      length_singleton, mem_singleton, forall_eq]
    exact hu
  | case3 u v rest h ih =>
    rw [Bool.and_eq_true] at h
    have hhigh := isHigh_iff.mp h.1
    have hlow := isLow_iff.mp h.2
    have hpair : 0x10000 ≤ (pair u v).toNat := by
      rw [pair, toNat_ofNat (by unfold Nat.isValidChar; omega)]
      omega
    have hone := one_lt_utf8Size (Nat.le_trans (by decide) hpair)
    have htwo : (pair u v).utf8Size ≠ 2 := fun he =>
      absurd (UInt32.le_iff_toNat_le.mp (Char.utf8Size_eq_two_iff.mp he).2)
        (Nat.not_le.mpr (Nat.lt_of_lt_of_le (by decide) hpair))
    simp only [flatMap_cons, length_append, String.length_utf8EncodeChar,
      length_cons]
    omega
  | case4 u v rest h ih =>
    have hu := hsingle u
    rw [forall_mem_cons] 
    simp only [flatMap_cons, length_append, String.length_utf8EncodeChar,
      length_cons] at ih ⊢
    exact ⟨by omega, fun hle => ⟨hu.2 (by omega), ih.2 (by omega)⟩⟩

theorem encode_ascii (h : ∀ u ∈ text, u.toNat < 128) : encode text = text.map (·.toUInt8) := by
  induction text with
  | nil => rfl
  | cons u text ih =>
    rw [forall_mem_cons] at h
    have hhigh : isHigh u = false := by
      rw [Bool.eq_false_iff, ne_eq, isHigh_iff]
      omega
    rw [encode, chars_cons hhigh, flatMap_cons, ← encode, ih h.2, single_ascii h.1]
    rfl

theorem length_units (c : Char) : (units c).length ≤ c.utf8Size := by
  unfold units
  split
  · exact Char.utf8Size_pos c
  next h => exact one_lt_utf8Size (Nat.le_trans (by decide) (Nat.not_lt.mp h))

/-- Reading never makes a text longer. -/
theorem length_decode (bytes : List UInt8) : (decode bytes).length ≤ bytes.length := by
  unfold decode
  fun_induction decodeChars bytes with
  | case1 => exact Nat.le_refl 0
  | case2 b bytes c hc ih =>
    have hsize := ByteArray.le_size_of_utf8DecodeChar?_eq_some hc
    have hunits := length_units c
    rw [size_toByteArray] at hsize
    rw [length_drop] at ih
    rw [flatMap_cons, length_append]
    omega
  | case3 b bytes hc ih =>
    rw [flatMap_cons, units_replacement, singleton_append, length_cons,
      length_cons]
    exact Nat.succ_le_succ ih

end NetBox.Lib.Utf8
