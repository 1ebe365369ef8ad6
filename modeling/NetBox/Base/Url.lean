import NetBox.Base.UnixPath
import NetBox.Base.Number
import Mathlib.Data.List.DropRight
import Mathlib.Data.List.TakeWhile

/-! # Texts of URLs

The helpers of Common.cpp and Sysutils.cpp that take a URL apart and put one
together. `DecodeUrlChars` and `DoEncodeUrl` change their text in place; here
they are functions of the text, with the run of `%XX` that is not inserted yet
as an argument.
-/

namespace NetBox.Base.Text

open List

def colon : WChar := 58
def semicolon : WChar := 59
def atSign : WChar := 64
def percent : WChar := 37

def isAscii (str : UnicodeString) : Bool := str.all fun c => decide (c < 128)

/-- What the operating system does with texts: it compares them, `CharLower`, and the two
directions of the UTF-8 conversion. Among the ASCII code units only the capital
letters have another lower case, and the colon is the lower case of nothing
else. With an ASCII text `AnsiSameText` finds those the same that have its lower case, and it
never ignores what stands before a slash. -/
structure TextApi extends Collation where
  lower : WChar → WChar
  utf8 : WChar → List UInt8
  utf8ToString : List UInt8 → UnicodeString
  lower_ascii : ∀ c < 128, lower c = if 65 ≤ c ∧ c ≤ 90 then c + 32 else c
  lower_eq_colon : ∀ c, lower c = colon → c = colon
  text_ascii : ∀ a b, isAscii b = true → (text.same a b = true ↔ a.map lower = b.map lower)
  text_slash : ∀ a b, text.same (a ++ slash :: b) b = false

variable {ch : WChar} {a str : UnicodeString}

namespace TextApi

def lowerCase (t : TextApi) (str : UnicodeString) : UnicodeString := str.map t.lower

/-- `SameText` and `AnsiSameText`. -/
def sameText (t : TextApi) (str1 str2 : UnicodeString) : Bool := t.text.same str1 str2

/-- `StrLIComp` finds no difference in the first `n` code units. -/
def sameStart (t : TextApi) (n : Nat) (str1 str2 : UnicodeString) : Bool :=
  t.sameText (str1.take n) (str2.take n)

theorem sameText_iff {t : TextApi} {a b : UnicodeString} (hb : isAscii b = true) :
    t.sameText a b = true ↔ t.lowerCase a = t.lowerCase b := t.text_ascii a b hb

theorem length_eq_of_sameText {t : TextApi} {a b : UnicodeString} (hb : isAscii b = true)
    (h : t.sameText a b = true) : a.length = b.length := by
  have := congrArg List.length ((sameText_iff hb).mp h)
  simpa [lowerCase] using this

/-- An ASCII text without capital letters is its own lower case. -/
theorem lowerCase_lower (t : TextApi)
    (h : str.all (fun c => decide (c < 128) && !(decide (65 ≤ c) && decide (c ≤ 90))) = true) :
    t.lowerCase str = str := by
  refine (map_congr_left fun c hc => ?_).trans (map_id str)
  have hlow := all_eq_true.mp h c hc
  simp only [Bool.and_eq_true, decide_eq_true_eq, Bool.not_eq_true', Bool.and_eq_false_iff,
    decide_eq_false_iff_not] at hlow
  rw [t.lower_ascii c hlow.1, if_neg fun hcap => hlow.2.elim (· hcap.1) (· hcap.2)]
  rfl

theorem lower_colon (t : TextApi) : t.lower colon = colon := by
  rw [t.lower_ascii colon (by decide), if_neg (by decide)]

end TextApi

/-- A system on which only ASCII matters. -/
def asciiText : TextApi where
  keys := .ofDecEq _
  text := .ofView (map asciiLower)
  lower := asciiLower
  utf8 c := [c.toUInt8]
  utf8ToString bytes := bytes.map (·.toUInt16)
  lower_ascii _ _ := rfl
  lower_eq_colon c h := by
    rw [asciiLower] at h
    split at h
    next hc =>
      rw [← UInt16.toNat_inj, UInt16.toNat_add] at h
      simp only [UInt16.le_iff_toNat_le, colon, UInt16.reduceToNat] at h hc
      omega
    next => exact h
  text_ascii _ _ _ := decide_eq_true_iff
  text_slash a b := by
    refine decide_eq_false fun h => ?_
    have := congrArg length h
    simp only [length_map, length_append, length_cons] at this
    omega

/-! ## Cutting -/

def trimLeft (str : UnicodeString) : UnicodeString := str.dropWhile (· == 32)

def trimRight (str : UnicodeString) : UnicodeString :=
  str.rdropWhile fun ch => ch == 32 || ch == 10 || ch == 13 || ch == 0

def trim (str : UnicodeString) : UnicodeString := trimRight (trimLeft str)

/-- The part before the first `ch`, and the part behind it. -/
def cutToChar (str : UnicodeString) (ch : WChar) (trim : Bool) : UnicodeString × UnicodeString :=
  let result := str.takeWhile (· != ch)
  let rest := (str.dropWhile (· != ch)).drop 1
  if trim then (trimRight result, trimLeft rest) else (result, rest)

/-- `LeftStr`, which is the text from a position on. -/
def leftStr (str : UnicodeString) (len : Nat) : UnicodeString := str.drop (len - 1)

theorem takeWhile_until (h : ch ∉ a) (b : UnicodeString) :
    (a ++ ch :: b).takeWhile (· != ch) = a := by
  rw [takeWhile_append_of_pos]
  · simp
  · intro x hx
    simpa using fun he : x = ch => h (he ▸ hx)

theorem dropWhile_until (h : ch ∉ a) (b : UnicodeString) :
    (a ++ ch :: b).dropWhile (· != ch) = ch :: b := by
  rw [dropWhile_append_of_pos]
  · simp
  · intro x hx
    simpa using fun he : x = ch => h (he ▸ hx)

theorem takeWhile_all (h : ch ∉ a) : a.takeWhile (· != ch) = a :=
  takeWhile_eq_self_iff.mpr fun x hx => by simpa using fun he : x = ch => h (he ▸ hx)

theorem dropWhile_all (h : ch ∉ a) : a.dropWhile (· != ch) = [] :=
  dropWhile_eq_nil_iff.mpr fun x hx => by simpa using fun he : x = ch => h (he ▸ hx)

theorem cutToChar_split (h : ch ∉ a) (b : UnicodeString) :
    cutToChar (a ++ ch :: b) ch false = (a, b) := by
  simp [cutToChar, takeWhile_until h, dropWhile_until h]

theorem cutToChar_all (h : ch ∉ a) : cutToChar a ch false = (a, []) := by
  simp [cutToChar, takeWhile_all h, dropWhile_all h]

/-- A text that holds `ch` has a first one. -/
theorem exists_first (h : ch ∈ a) : ∃ b c, a = b ++ ch :: c ∧ ch ∉ b := by
  exact eq_append_cons_of_mem h

/-- A text that holds `ch` has a last one. -/
theorem exists_last (h : ch ∈ a) : ∃ b c, a = b ++ ch :: c ∧ ch ∉ c := by
  obtain ⟨b, c, he, hb⟩ := exists_first (mem_reverse.mpr h)
  refine ⟨c.reverse, b.reverse, ?_, by simpa using hb⟩
  have := congrArg List.reverse he
  simpa using this

/-! ## Positions of one code unit -/

theorem pos_split (h : ch ∉ a) (b : UnicodeString) : pos [ch] (a ++ ch :: b) = a.length + 1 := by
  induction a with
  | nil => simp [pos]
  | cons c a ih =>
    have hc : ch ≠ c := fun he => h (by simp [he])
    have ih := ih fun hm => h (mem_cons_of_mem _ hm)
    simp [pos, hc, ih]

theorem pos_absent (h : ch ∉ a) : pos [ch] a = 0 := by
  induction a with
  | nil => rfl
  | cons c a ih =>
    have hc : ch ≠ c := fun he => h (by simp [he])
    have ih := ih fun hm => h (mem_cons_of_mem _ hm)
    simp [pos, hc, ih]

theorem lastDelimiter_absent (h : ch ∉ a) : lastDelimiter [ch] a = 0 := by
  have hskip : lastDelimiterFrom [ch] a (0 + a.length) = lastDelimiterFrom [ch] a 0 := by
    refine lastDelimiterFrom_skip _ fun i _ _ => isDelimiter_eq_false fun c hc => ?_
    have hmem : c ∈ a := mem_of_getElem? hc
    simpa using fun he : c = ch => h (he ▸ hmem)
  rwa [Nat.zero_add] at hskip

/-! ## Positions of a text -/

theorem pos_some {sub str : UnicodeString} {n : Nat} (h : pos sub str = n + 1) :
    ∃ b, str = str.take n ++ sub ++ b ∧ n ≤ str.length := by
  induction str generalizing n with
  | nil =>
    rw [pos] at h
    split at h
    next hnil =>
      obtain rfl := List.isEmpty_iff.mp hnil
      exact ⟨[], by simp, by omega⟩
    next => cases h
  | cons c str ih =>
    rw [pos] at h
    split at h
    next hstart =>
      obtain ⟨b, hb⟩ := List.isPrefixOf_iff_prefix.mp hstart
      obtain rfl : n = 0 := (Nat.succ.inj h).symm
      exact ⟨b, by simp [hb], Nat.zero_le _⟩
    next =>
      split at h
      next => cases h
      next m hm =>
        obtain rfl : n = m + 1 := (Nat.succ.inj h).symm
        obtain ⟨b, hb, hle⟩ := ih hm
        refine ⟨b, ?_, Nat.succ_le_succ hle⟩
        rw [take_succ_cons, cons_append, cons_append, ← hb]

theorem pos_le (a sub b : UnicodeString) :
    pos sub (a ++ sub ++ b) ≠ 0 ∧ pos sub (a ++ sub ++ b) ≤ a.length + 1 := by
  induction a with
  | nil =>
    cases sub with
    | nil => cases b <;> simp [pos]
    | cons c sub => simp [pos]
  | cons c a ih =>
    simp only [cons_append, pos]
    split
    · simp
    · split
      next h => exact absurd h ih.1
      next n h =>
        rw [h] at ih
        exact ⟨by simp, by simp only [length_cons]; omega⟩

/-! ## Decoding and encoding -/

def isHex (ch : WChar) : Bool :=
  isDigit ch || (65 ≤ ch && ch ≤ 70) || (97 ≤ ch && ch ≤ 102)

/-- The text of a run of `%XX`. Nothing is inserted for an empty one. -/
def TextApi.chars (t : TextApi) (bytes : List UInt8) : UnicodeString :=
  if bytes = [] then [] else t.utf8ToString bytes

/-- What `Insert` puts in of a text: it ends at the first U+0000. -/
def uptoNul (str : UnicodeString) : UnicodeString := str.takeWhile (· != 0)

/-- `operator +` builds its result from a C string. -/
def plus (lhs rhs : UnicodeString) : UnicodeString := uptoNul (lhs ++ rhs)

theorem uptoNul_eq (h : 0 ∉ str) : uptoNul str = str := by
  rw [uptoNul, takeWhile_eq_self_iff]
  intro c hc
  simpa using fun he : c = 0 => h (he ▸ hc)

theorem zero_not_mem_uptoNul (str : UnicodeString) : 0 ∉ uptoNul str := fun h => by
  have := mem_takeWhile_imp h
  simp at this

/-- A plus is a blank. -/
def decodeChar (ch : WChar) : WChar := if ch = 43 then 32 else ch

/-- A code unit of the text, which stays as it is when the scan has run past it. -/
def keepChar (ahead : Nat) (ch : WChar) : WChar := if ahead = 0 then decodeChar ch else ch

/-- How far the scan is ahead of the text behind the run `bytes`: it moves by the
whole text of the run, also where `Insert` has put in less. -/
def TextApi.ahead (t : TextApi) (skip : Nat) (bytes : List UInt8) : Nat :=
  skip + ((t.chars bytes).length - (uptoNul (t.chars bytes)).length)

/-- Decodes the rest of a text behind the run `bytes`. The scan has run past the
first `skip` code units. -/
def TextApi.decodeFrom (t : TextApi) (skip : Nat) (bytes : List UInt8) :
    UnicodeString → UnicodeString
  | [] => uptoNul (t.chars bytes)
  | [a] => uptoNul (t.chars bytes) ++ [keepChar (t.ahead skip bytes) a]
  | [a, b] => uptoNul (t.chars bytes) ++
      [keepChar (t.ahead skip bytes) a, keepChar (t.ahead skip bytes - 1) b]
  | a :: b :: c :: str =>
    if skip = 0 ∧ a = percent ∧ isHex b ∧ isHex c then
      t.decodeFrom 0 (bytes ++ [hexToByte b c]) str
    else uptoNul (t.chars bytes) ++ keepChar (t.ahead skip bytes) a ::
      t.decodeFrom (t.ahead skip bytes - 1) [] (b :: c :: str)

def TextApi.decodeUrlChars (t : TextApi) (url : UnicodeString) : UnicodeString :=
  t.decodeFrom 0 [] url

/-- `Pos` finds the code unit. In a text that is not empty it also finds the
U+0000 that ends it. -/
def found (str : UnicodeString) (ch : WChar) : Bool :=
  str.contains ch || (ch == 0 && !str.isEmpty)

/-- The code units that `DoEncodeUrl` leaves alone. -/
def isPlain (doNotEncode : UnicodeString) (ch : WChar) : Bool :=
  isLetter ch || isDigit ch || (wstr "_-.*").contains ch || found doNotEncode ch

def TextApi.doEncodeUrl (t : TextApi) (doNotEncode str : UnicodeString) : UnicodeString :=
  str.flatMap fun ch =>
    if isPlain doNotEncode ch then [ch] else (t.utf8 ch).flatMap fun b => percent :: byteToHex b

def TextApi.encodeUrlString (t : TextApi) (str : UnicodeString) : UnicodeString :=
  t.doEncodeUrl [] str

def TextApi.encodeUrlPath (t : TextApi) (str : UnicodeString) : UnicodeString :=
  t.doEncodeUrl [slash] str

/-! ## What an encoded text is made of -/

def isUrlChar (ch : WChar) : Bool := isPlain [] ch || ch == percent

theorem isUrlChar_of_mem_byteToHex {b : UInt8} (h : ch ∈ byteToHex b) : isUrlChar ch = true := by
  have hdigit : ∀ n : Fin 16, isUrlChar (hexDigit n.val) = true := by decide
  have hb : b.toNat < 256 := UInt8.toNat_lt b
  rw [byteToHex, mem_cons, mem_singleton] at h
  rcases h with rfl | rfl
  · exact hdigit ⟨b.toNat / 16, by omega⟩
  · exact hdigit ⟨b.toNat % 16, by omega⟩

theorem isUrlChar_of_mem_doEncodeUrl {t : TextApi} {doNotEncode str : UnicodeString}
    (h : ch ∈ t.doEncodeUrl doNotEncode str) :
    isUrlChar ch = true ∨ found doNotEncode ch = true := by
  obtain ⟨c, -, hc⟩ := mem_flatMap.mp h
  split at hc
  next hplain =>
    rw [mem_singleton] at hc
    subst hc
    rw [isPlain, Bool.or_eq_true] at hplain
    rcases hplain with hplain | hplain
    · exact .inl (by rw [isUrlChar, isPlain, hplain, Bool.true_or, Bool.true_or])
    · exact .inr hplain
  next =>
    obtain ⟨b, -, hb⟩ := mem_flatMap.mp hc
    rcases mem_cons.mp hb with rfl | hb
    · exact .inl (by decide)
    · exact .inl (isUrlChar_of_mem_byteToHex hb)

theorem not_mem_encodeUrlString (ch : WChar) (h : isUrlChar ch = false) (t : TextApi)
    (str : UnicodeString) : ch ∉ t.encodeUrlString str := by
  intro hmem
  obtain hc | hc := isUrlChar_of_mem_doEncodeUrl hmem
  · rw [h] at hc
    cases hc
  · simp [found] at hc

theorem not_mem_encodeUrlPath (ch : WChar) (h : isUrlChar ch = false)
    (hs : found [slash] ch = false) (t : TextApi) (str : UnicodeString) :
    ch ∉ t.encodeUrlPath str := by
  intro hmem
  obtain hc | hc := isUrlChar_of_mem_doEncodeUrl hmem
  · rw [h] at hc
    cases hc
  · rw [hs] at hc
    cases hc

theorem trimRight_eq (h : 32 ∉ str ∧ 10 ∉ str ∧ 13 ∉ str ∧ 0 ∉ str) : trimRight str = str := by
  rw [trimRight, rdropWhile_eq_self_iff]
  intro hne
  have hmem := getLast_mem hne
  simp only [Bool.or_eq_true, beq_iff_eq]
  rintro (((he | he) | he) | he)
  · exact h.1 (he ▸ hmem)
  · exact h.2.1 (he ▸ hmem)
  · exact h.2.2.1 (he ▸ hmem)
  · exact h.2.2.2 (he ▸ hmem)

theorem trimRight_slash (h : str.getLast? = some slash) : trimRight str = str := by
  rw [trimRight, rdropWhile_eq_self_iff]
  intro hne
  rw [getLast?_eq_some_getLast hne, Option.some.injEq] at h
  rw [h]
  decide

theorem uptoNul_nil_chars (t : TextApi) : uptoNul (t.chars []) = [] := rfl

theorem ahead_nil (t : TextApi) (skip : Nat) : t.ahead skip [] = skip := by
  rw [TextApi.ahead, TextApi.chars, if_pos rfl]
  rfl

theorem keepChar_slash (n : Nat) : keepChar n slash = slash := by
  rw [keepChar]
  split
  · decide
  · rfl

theorem decodeFrom_slash (t : TextApi) (skip : Nat) (bytes : List UInt8) (str : UnicodeString) :
    t.decodeFrom skip bytes (str ++ [slash]) = t.decodeFrom skip bytes str ++ [slash] := by
  have hslash : isHex slash = false := by decide
  fun_induction t.decodeFrom skip bytes str with
  | case1 => simp [TextApi.decodeFrom, keepChar_slash]
  | case2 => simp [TextApi.decodeFrom, keepChar_slash]
  | case3 => simp [TextApi.decodeFrom, uptoNul_nil_chars, ahead_nil, keepChar_slash, hslash]
  | case4 skip bytes a b c str hc ih => simpa [TextApi.decodeFrom, hc] using ih
  | case5 skip bytes a b c str hc ih =>
    simp only [cons_append] at ih ⊢
    rw [TextApi.decodeFrom, if_neg hc, ih, append_assoc, cons_append]

/-- A slash at the end is decoded by itself. -/
theorem decodeUrlChars_slash (t : TextApi) (str : UnicodeString) :
    t.decodeUrlChars (str ++ [slash]) = t.decodeUrlChars str ++ [slash] :=
  decodeFrom_slash t 0 [] str

/-- A code unit that starts no `%XX` ends the run before it. -/
theorem decodeFrom_cons (t : TextApi) (skip : Nat) (bytes : List UInt8) {a : WChar}
    (h : a ≠ percent) (str : UnicodeString) :
    t.decodeFrom skip bytes (a :: str) = uptoNul (t.chars bytes) ++
      keepChar (t.ahead skip bytes) a :: t.decodeFrom (t.ahead skip bytes - 1) [] str := by
  match str with
  | [] => simp [TextApi.decodeFrom, uptoNul_nil_chars]
  | [b] => simp [TextApi.decodeFrom, uptoNul_nil_chars, ahead_nil]
  | b :: c :: str => rw [TextApi.decodeFrom, if_neg fun hc => h hc.2.1]

/-- Without `%XX` only the blanks are decoded. -/
theorem decodeUrlChars_plain (t : TextApi) (h : percent ∉ str) :
    t.decodeUrlChars str = str.map decodeChar := by
  rw [TextApi.decodeUrlChars]
  induction str with
  | nil => rfl
  | cons a str ih =>
    rw [decodeFrom_cons t 0 [] fun he => h (by simp [he]), ahead_nil, map_cons,
      ih fun hmem => h (mem_cons_of_mem _ hmem)]
    rfl

end NetBox.Base.Text
