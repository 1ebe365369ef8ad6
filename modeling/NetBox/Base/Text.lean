import NetBox.Lib.KeyMap

/-! # Texts and paths

`UnicodeString` is a sequence of 16-bit code units, positions in it count from
1 and 0 means "not there". The path functions are those of Sysutils.cpp and
Common.cpp. File names hold no NUL, so the searches that the source makes on
NUL-terminated buffers are searches in the whole text.
-/
namespace NetBox.Base.Text
open Lib.KeyMap List

abbrev WChar := UInt16
abbrev UnicodeString := List WChar

/-- The code units of a literal. -/
def wstr (s : String) : UnicodeString := s.toList.map fun c => c.toNat.toUInt16

/-- What holds for the characters of a list one by one. -/
theorem forall_mem_of_all {str : UnicodeString} {p : WChar → Prop} [DecidablePred p]
    (h : str.all (fun ch => decide (p ch)) = true) : ∀ ch ∈ str, p ch := fun ch hch =>
  of_decide_eq_true (all_eq_true.mp h ch hch)

/-- Letters of the ASCII range in upper case, and in lower case. -/
def asciiUpper (ch : WChar) : WChar := if 97 ≤ ch ∧ ch ≤ 122 then ch - 32 else ch
def asciiLower (ch : WChar) : WChar := if 65 ≤ ch ∧ ch ≤ 90 then ch + 32 else ch

def slash : WChar := 47
def backslash : WChar := 92

/-- `CompareString` of the operating system, called without flags but
`SORT_STRINGSORT` for the order of map keys, and with `NORM_IGNORECASE` for
`AnsiSameText`. Either way comparing equal is an equivalence of texts. -/
structure Collation where
  keys : Keys UnicodeString
  text : Keys UnicodeString

def Collation.ofDecEq : Collation := ⟨.ofDecEq _, .ofDecEq _⟩

def isDelimiter (delimiters str : UnicodeString) (index : Nat) : Bool :=
  match str[index - 1]? with
  | some ch => delimiters.contains ch
  | none => false

def lastDelimiterFrom (delimiters str : UnicodeString) : Nat → Nat
  | 0 => 0
  | i + 1 => if isDelimiter delimiters str (i + 1) then i + 1 else lastDelimiterFrom delimiters str i

def lastDelimiter (delimiters str : UnicodeString) : Nat :=
  lastDelimiterFrom delimiters str str.length

/-- First position of `sub`, or 0. -/
def pos (sub : UnicodeString) : UnicodeString → Nat
  | [] => if sub.isEmpty then 1 else 0
  | c :: str => if sub.isPrefixOf (c :: str) then 1 else
      match pos sub str with
      | 0 => 0
      | n + 1 => n + 2

def startsText (sub text : UnicodeString) : Bool := pos sub text == 1

/-- The last code unit is one of `chars`. -/
def endsIn (chars str : UnicodeString) : Bool :=
  match str.getLast? with
  | some ch => chars.contains ch
  | none => false

def excludeTrailingBackslash (str : UnicodeString) : UnicodeString :=
  if endsIn [slash, backslash] str then str.dropLast else str

def includeTrailingBackslash (str : UnicodeString) : UnicodeString :=
  if endsIn [slash, backslash] str then str else str ++ [backslash]

/-- An empty path stays empty. -/
def unixIncludeTrailingBackslash (path : UnicodeString) : UnicodeString :=
  if !path.isEmpty && !isDelimiter [slash] path path.length then path ++ [slash] else path

def extractFileDir (str : UnicodeString) : UnicodeString :=
  let p := lastDelimiter [slash, backslash] str
  if p > 1 then str.take p else if p = 1 then [slash] else []

def unixExtractFileDir (path : UnicodeString) : UnicodeString :=
  let p := lastDelimiter [slash] path
  if p > 1 then path.take (p - 1) else if p = 1 then [slash] else []

def extractFilename (path : UnicodeString) (delimiter : WChar) : UnicodeString :=
  path.drop (lastDelimiter [delimiter] path)

def unixExtractFileName (path : UnicodeString) : UnicodeString :=
  path.drop (lastDelimiter [slash] path)

def samePaths (c : Collation) (path1 path2 : UnicodeString) : Bool :=
  c.text.same (includeTrailingBackslash path1) (includeTrailingBackslash path2)

def unixSamePath (path1 path2 : UnicodeString) : Bool :=
  unixIncludeTrailingBackslash path1 == unixIncludeTrailingBackslash path2

/-- `C:` and a name is `C:\name`, not `C:name`. -/
def combinePaths (path1 path2 : UnicodeString) : UnicodeString :=
  let path1 := if endsIn (wstr ":") path1 then includeTrailingBackslash path1 else path1
  includeTrailingBackslash path1 ++ path2

def unixCombinePaths (path1 path2 : UnicodeString) : UnicodeString :=
  unixIncludeTrailingBackslash path1 ++ path2

def intToStr (n : Nat) : UnicodeString := wstr (toString n)

/-! ## Hexadecimal digits -/

def hexDigit (n : Nat) : WChar := (if n < 10 then 48 + n else 55 + n).toUInt16

def byteToHex (b : UInt8) : UnicodeString := [hexDigit (b.toNat / 16), hexDigit (b.toNat % 16)]

def hexValue (ch : WChar) : Option Nat :=
  if 48 ≤ ch ∧ ch ≤ 57 then some (ch.toNat - 48)
  else if 65 ≤ ch ∧ ch ≤ 70 then some (ch.toNat - 55)
  else if 97 ≤ ch ∧ ch ≤ 102 then some (ch.toNat - 87)
  else none

/-- The byte that two digits stand for, 0 when they are no digits. -/
def hexToByte (a b : WChar) : UInt8 :=
  match hexValue a, hexValue b with
  | some a, some b => (a * 16 + b).toUInt8
  | _, _ => 0

/-! ## Where a path is cut -/

theorem isDelimiter_eq_false {delimiters str : UnicodeString} {index : Nat}
    (h : ∀ ch, str[index - 1]? = some ch → ch ∉ delimiters) :
    isDelimiter delimiters str index = false := by
  unfold isDelimiter
  split
  · rename_i ch hch
    simpa using h ch hch
  · rfl

/-- The scan goes past positions that hold no delimiter. -/
theorem lastDelimiterFrom_skip {delimiters str : UnicodeString} {n : Nat} :
    ∀ k, (∀ i, n < i → i ≤ n + k → isDelimiter delimiters str i = false) →
      lastDelimiterFrom delimiters str (n + k) = lastDelimiterFrom delimiters str n
  | 0, _ => rfl
  | k + 1, h => by
    have hk : isDelimiter delimiters str (n + k + 1) = false := h _ (by omega) (by omega)
    rw [← Nat.add_assoc, lastDelimiterFrom, hk, if_neg Bool.false_ne_true]
    exact lastDelimiterFrom_skip k fun i hi hle => h i hi (by omega)

theorem lastDelimiter_split {delimiters : UnicodeString} (a : UnicodeString) {d : WChar}
    {b : UnicodeString} (hd : d ∈ delimiters) (hb : ∀ ch ∈ b, ch ∉ delimiters) :
    lastDelimiter delimiters (a ++ d :: b) = a.length + 1 := by
  have hlen : (a ++ d :: b).length = a.length + 1 + b.length := by simp; omega
  have hat : isDelimiter delimiters (a ++ d :: b) (a.length + 1) = true := by
    simp [isDelimiter, hd]
  rw [lastDelimiter, hlen, lastDelimiterFrom_skip, lastDelimiterFrom, if_pos hat]
  intro i hi hle
  apply isDelimiter_eq_false
  intro ch hch
  rw [getElem?_append_right (by omega),
    show i - 1 - a.length = (i - 2 - a.length) + 1 by omega, getElem?_cons_succ] at hch
  exact hb ch (mem_of_getElem? hch)

theorem lastDelimiter_last (a : UnicodeString) {b : UnicodeString} {ch : WChar} (h : ch ∉ b) :
    lastDelimiter [ch] (a ++ ch :: b) = a.length + 1 := by
  refine lastDelimiter_split a (mem_singleton.mpr rfl) fun c hc hmem => h ?_
  rwa [← mem_singleton.mp hmem]

theorem unixExtractFileName_join (dir : UnicodeString) {name : UnicodeString} (h : slash ∉ name) :
    unixExtractFileName (dir ++ slash :: name) = name := by
  rw [unixExtractFileName, lastDelimiter_last dir h]
  simp

/-- The directory of `dir/name`; only for a name right below `/` the slash is kept. -/
theorem unixExtractFileDir_join (dir : UnicodeString) {name : UnicodeString} (h : slash ∉ name) :
    unixExtractFileDir (dir ++ slash :: name) = if dir = [] then [slash] else dir := by
  unfold unixExtractFileDir
  rw [lastDelimiter_last dir h]
  cases dir with
  | nil => rfl
  | cons c dir => simp

theorem startsText_iff {sub text : UnicodeString} (hs : sub ≠ []) :
    startsText sub text = true ↔ sub <+: text := by
  unfold startsText
  cases text with
  | nil => simp [pos, hs]
  | cons c text =>
    by_cases h : sub <+: c :: text
    · simp [pos, h]
    · simp only [pos, List.isPrefixOf_iff_prefix, h, if_false, iff_false, beq_iff_eq]
      split <;> omega

/-! ## Directory paths without a trailing separator -/

/-- Neither empty nor ending with a slash or a backslash: what the source's
cutting of trailing separators leaves as it is. -/
def PlainDir (dir : UnicodeString) : Prop := dir ≠ [] ∧ endsIn [slash, backslash] dir = false

instance (dir : UnicodeString) : Decidable (PlainDir dir) := by unfold PlainDir; infer_instance

theorem PlainDir.exclude {dir : UnicodeString} (h : PlainDir dir) :
    excludeTrailingBackslash dir = dir := by simp [excludeTrailingBackslash, h.2]

theorem isDelimiter_length (delimiters str : UnicodeString) :
    isDelimiter delimiters str str.length = endsIn delimiters str := by
  simp only [isDelimiter, endsIn, getLast?_eq_getElem?]

theorem endsIn_mono {as bs str : UnicodeString} (hsub : as ⊆ bs) (h : endsIn bs str = false) :
    endsIn as str = false := by
  unfold endsIn at *
  split
  · rename_i ch hch
    rw [hch] at h
    simp only [contains_eq_mem, decide_eq_false_iff_not] at h ⊢
    exact fun hm => h (hsub hm)
  · rfl

theorem PlainDir.include {dir : UnicodeString} (h : PlainDir dir) :
    unixIncludeTrailingBackslash dir = dir ++ [slash] := by
  have he : endsIn [slash] dir = false := endsIn_mono (by simp) h.2
  simp [unixIncludeTrailingBackslash, isDelimiter_length, he, h.1]

theorem include_append_slash (dir : UnicodeString) :
    unixIncludeTrailingBackslash (dir ++ [slash]) = dir ++ [slash] := by
  have he : isDelimiter [slash] (dir ++ [slash]) (dir ++ [slash]).length = true := by
    rw [isDelimiter_length]; simp [endsIn]
  rw [unixIncludeTrailingBackslash, he]; simp

theorem length_include_le (dir : UnicodeString) :
    (unixIncludeTrailingBackslash dir).length ≤ dir.length + 1 := by
  unfold unixIncludeTrailingBackslash
  split <;> simp

/-- The directory of an entry of `dir/` is recognised as `dir/` exactly when
`dir` has no trailing separator to lose. -/
theorem unixSamePath_root_iff (dir : UnicodeString) :
    unixSamePath (excludeTrailingBackslash (if dir = [] then [slash] else dir)) (dir ++ [slash])
      = true ↔ PlainDir dir := by
  unfold unixSamePath
  rw [include_append_slash, beq_iff_eq]
  constructor
  · intro h
    have hne : dir ≠ [] := by
      rintro rfl
      exact absurd h (by decide)
    refine ⟨hne, Bool.eq_false_iff.mpr fun he => ?_⟩
    rw [if_neg hne, excludeTrailingBackslash, if_pos he] at h
    have hl := congrArg List.length h
    have hle := length_include_le dir.dropLast
    have hpos := length_pos_iff.mpr hne
    simp only [length_append, length_dropLast, length_singleton] at hl hle
    omega
  · intro h
    rw [if_neg h.1, h.exclude, h.include]

end NetBox.Base.Text
