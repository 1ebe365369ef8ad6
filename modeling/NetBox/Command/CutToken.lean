import NetBox.Base.Text

/-! # Cutting tokens off a command line

`DoCutToken` of Common.cpp. Blanks outside of quotes separate tokens, a quote that is
not doubled toggles quoting. `CutToken` takes two quotes for a quote everywhere,
`CutTokenEx` only within quotes.
-/
namespace NetBox.Command.CutToken
open Base.Text List

def quote : WChar := 34

def isBlank (ch : WChar) : Bool := ch == 32 || ch == 9

/-- The loop of `DoCutToken`: the token, and the text from where it ends. -/
def takeToken (escapeQuotesInQuotesOnly : Bool) :
    Bool → UnicodeString → UnicodeString → UnicodeString × UnicodeString
  | _, token, [] => (token, [])
  | quoting, token, ch :: rest =>
    if !quoting && isBlank ch then (token, ch :: rest)
    else if ch = quote then
      match rest with
      | [] => (token, [])
      | next :: rest =>
        if next = quote && (!escapeQuotesInQuotesOnly || quoting) then
          takeToken escapeQuotesInQuotesOnly quoting (token ++ [quote]) rest
        else takeToken escapeQuotesInQuotesOnly (!quoting) token (next :: rest)
    else takeToken escapeQuotesInQuotesOnly quoting (token ++ [ch]) rest

/-- What a successful call leaves in its four arguments. -/
structure Cut where
  str : UnicodeString
  token : UnicodeString
  rawToken : UnicodeString
  separator : UnicodeString
deriving DecidableEq

/-- `none` is the result `false`, which comes with an empty text and an empty token. -/
def doCutToken (escapeQuotesInQuotesOnly : Bool) (str : UnicodeString) : Option Cut :=
  let rest := str.dropWhile isBlank
  if rest.isEmpty then none
  else
    let (token, left) := takeToken escapeQuotesInQuotesOnly false [] rest
    some {
      str := left.drop 1
      token := token
      rawToken := str.take (str.length - left.length)
      separator := left.take 1 }

def cutToken (str : UnicodeString) : Option Cut := doCutToken false str
def cutTokenEx (str : UnicodeString) : Option Cut := doCutToken true str

/-- Only `CutToken` reads a quote from two quotes that stand alone. -/
example : (cutToken (wstr " \"\" b")).map Cut.token = some (wstr "\"") ∧
    (cutTokenEx (wstr " \"\" b")).map Cut.token = some [] := by decide

/-! ## What is cut off -/

variable {inQuotesOnly quoting : Bool} {token rest str : UnicodeString} {ch : WChar} {cut : Cut}

theorem takeToken_blank (h : isBlank ch = true) :
    takeToken inQuotesOnly false token (ch :: rest) = (token, ch :: rest) := by
  rw [takeToken.eq_def]
  exact if_pos (by simp [h])

theorem takeToken_char (hquote : ch ≠ quote) (h : quoting = true ∨ isBlank ch = false) :
    takeToken inQuotesOnly quoting token (ch :: rest) =
      takeToken inQuotesOnly quoting (token ++ [ch]) rest := by
  rw [takeToken.eq_def]
  exact (if_neg (by rcases h with h | h <;> simp [h])).trans (if_neg hquote)

theorem takeToken_doubled (h : inQuotesOnly = false ∨ quoting = true) :
    takeToken inQuotesOnly quoting token (quote :: quote :: rest) =
      takeToken inQuotesOnly quoting (token ++ [quote]) rest := by
  rw [takeToken, if_neg (by simp [isBlank, quote]), if_pos rfl]
  exact if_pos (by rcases h with h | h <;> simp [h])

theorem takeToken_quote
    (h : (inQuotesOnly = true ∧ quoting = false) ∨ rest.head? ≠ some quote) :
    takeToken inQuotesOnly quoting token (quote :: rest) =
      takeToken inQuotesOnly (!quoting) token rest := by
  cases rest with
  | nil => simp [takeToken, isBlank, quote]
  | cons next rest =>
    rw [takeToken, if_neg (by simp [isBlank, quote]), if_pos rfl]
    refine if_neg ?_
    rcases h with ⟨hin, hq⟩ | h
    · simp [hin, hq]
    · simp only [head?_cons, ne_eq, Option.some.injEq] at h
      simp [h]

/-- The token ends at a place of the text. -/
theorem takeToken_suffix (inQuotesOnly quoting : Bool) (token str : UnicodeString) :
    (takeToken inQuotesOnly quoting token str).2 <:+ str := by
  fun_induction takeToken inQuotesOnly quoting token str with
  | case1 => exact suffix_rfl
  | case2 => exact suffix_rfl
  | case3 => exact nil_suffix
  | case4 _ _ _ _ _ _ ih =>
    exact ih.trans ((suffix_cons _ _).trans (suffix_cons _ _))
  | case5 _ _ _ _ _ _ ih => exact ih.trans (suffix_cons _ _)
  | case6 _ _ _ _ _ _ ih => exact ih.trans (suffix_cons _ _)

/-- At a character that is no blank, something is taken. -/
theorem takeToken_length (h : isBlank ch = false) :
    (takeToken inQuotesOnly false token (ch :: rest)).2.length ≤ rest.length := by
  by_cases hquote : ch = quote
  · subst hquote
    cases rest with
    | nil => simp [takeToken, isBlank, quote]
    | cons next rest =>
      by_cases hnext : next = quote ∧ inQuotesOnly = false
      · rw [hnext.1, takeToken_doubled (.inl hnext.2)]
        exact Nat.le_succ_of_le (takeToken_suffix ..).length_le
      · rw [takeToken_quote]
        · exact (takeToken_suffix ..).length_le
        · cases inQuotesOnly with
          | true => exact .inl ⟨rfl, rfl⟩
          | false => exact .inr (by simpa using hnext)
  · rw [takeToken_char hquote (.inr h)]
    exact (takeToken_suffix ..).length_le

theorem dropWhile_isBlank_cons (h : str.dropWhile isBlank ≠ []) :
    ∃ ch rest, str.dropWhile isBlank = ch :: rest ∧ isBlank ch = false := by
  obtain ⟨ch, rest, heq⟩ := exists_cons_of_ne_nil h
  have hhead := head_dropWhile_not isBlank h
  simp only [heq, head_cons] at hhead
  exact ⟨ch, rest, heq, hhead⟩

/-- Nothing is lost: the raw token, the separator and what is left are the text. The
raw token is not empty. -/
theorem doCutToken_split (h : doCutToken inQuotesOnly str = some cut) :
    cut.rawToken ++ cut.separator ++ cut.str = str ∧ cut.rawToken ≠ [] := by
  simp only [doCutToken, List.isEmpty_iff] at h
  split at h
  · cases h
  · next hne =>
    obtain ⟨ch, rest, heq, hch⟩ := dropWhile_isBlank_cons hne
    have hsuffix := (takeToken_suffix inQuotesOnly false [] (str.dropWhile isBlank)).trans
      (dropWhile_suffix isBlank)
    have hlength := (dropWhile_suffix isBlank (l := str)).length_le
    have htaken : (takeToken inQuotesOnly false [] (str.dropWhile isBlank)).2.length
        < str.length := by
      rw [heq] at hlength ⊢
      exact Nat.lt_of_le_of_lt (takeToken_length hch) hlength
    cases h
    obtain ⟨front, hfront⟩ := hsuffix
    generalize (takeToken inQuotesOnly false [] (str.dropWhile isBlank)).2 = left at *
    subst hfront
    refine ⟨?_, ?_⟩
    · rw [append_assoc, take_append_drop]
      simp
    · simpa [length_pos_iff] using htaken

theorem doCutToken_shorter (h : doCutToken inQuotesOnly str = some cut) :
    cut.str.length < str.length := by
  obtain ⟨hsplit, hne⟩ := doCutToken_split h
  have hpos := length_pos_iff.mpr hne
  rw [← hsplit]
  simp only [length_append]
  omega

/-- The tokens that calls of `DoCutToken` give until none is left. -/
def cutTokens (inQuotesOnly : Bool) (str : UnicodeString) : List UnicodeString :=
  match _h : doCutToken inQuotesOnly str with
  | none => []
  | some cut => cut.token :: cutTokens inQuotesOnly cut.str
termination_by str.length
decreasing_by exact doCutToken_shorter _h

theorem cutTokens_none (h : doCutToken inQuotesOnly str = none) :
    cutTokens inQuotesOnly str = [] := by
  rw [cutTokens]
  split
  · rfl
  · next h' => rw [h] at h'; cases h'

theorem cutTokens_some (h : doCutToken inQuotesOnly str = some cut) :
    cutTokens inQuotesOnly str = cut.token :: cutTokens inQuotesOnly cut.str := by
  rw [cutTokens]
  split
  · next h' => rw [h] at h'; cases h'
  · next h' => rw [h] at h'; cases h'; rfl

/-! ## Quoted tokens -/

/-- A text with every quote in it doubled. -/
def doubleQuotes (token : UnicodeString) : UnicodeString :=
  token.flatMap fun ch => if ch = quote then [quote, quote] else [ch]

def quoted (token : UnicodeString) : UnicodeString := [quote] ++ doubleQuotes token ++ [quote]

/-- Quoted tokens with a space between every two. -/
def joined (tokens : List UnicodeString) : UnicodeString :=
  [32].intercalate (tokens.map quoted)

/-- Within quotes the doubled text is read up to the quote that ends it. -/
theorem takeToken_doubleQuotes (h : rest.head? ≠ some quote) (text token : UnicodeString) :
    takeToken inQuotesOnly true token (doubleQuotes text ++ quote :: rest) =
      takeToken inQuotesOnly false (token ++ text) rest := by
  induction text generalizing token with
  | nil => rw [append_nil]; exact takeToken_quote (.inr h)
  | cons ch text ih =>
    rw [doubleQuotes, flatMap_cons, ← doubleQuotes]
    split
    next hch =>
      rw [hch]
      show takeToken _ _ _ (quote :: quote :: (doubleQuotes text ++ quote :: rest)) = _
      rw [takeToken_doubled (.inr rfl), ih, append_assoc, singleton_append]
    next hch =>
      show takeToken _ _ _ (ch :: (doubleQuotes text ++ quote :: rest)) = _
      rw [takeToken_char hch (.inl rfl), ih, append_assoc, singleton_append]

/-- A quoted token is cut off at the end of the text or at a blank behind it. -/
theorem cutTokenEx_quoted (text : UnicodeString) (h : ∀ ch ∈ rest.head?, isBlank ch = true) :
    ∃ cut, doCutToken true (quoted text ++ rest) = some cut ∧ cut.token = text ∧
      cut.str = rest.drop 1 := by
  have hhead : rest.head? ≠ some quote := fun he => absurd (h quote he) (by decide)
  have hopen : quoted text ++ rest = quote :: (doubleQuotes text ++ quote :: rest) := by
    simp [quoted]
  have hend : takeToken true false text rest = (text, rest) := by
    cases rest with
    | nil => rfl
    | cons ch rest => exact takeToken_blank (h ch rfl)
  have hblank : (quoted text ++ rest).dropWhile isBlank = quoted text ++ rest := by
    rw [hopen]; rfl
  have htaken : takeToken true false [] (quoted text ++ rest) = (text, rest) := by
    rw [hopen, takeToken_quote (.inl ⟨rfl, rfl⟩)]
    exact (takeToken_doubleQuotes hhead text []).trans hend
  have hne : (quoted text ++ rest).isEmpty = false := by simp [quoted]
  simp only [doCutToken, hblank, htaken, hne, Bool.false_eq_true, if_false, Option.some.injEq,
    exists_eq_left', and_self]

/-- The tokens of a line of quoted tokens are those tokens, whatever characters they
have. -/
theorem cutTokens_joined (tokens : List UnicodeString) :
    cutTokens true (joined tokens) = tokens := by
  induction tokens with
  | nil => exact cutTokens_none rfl
  | cons text tokens ih =>
    cases tokens with
    | nil =>
      have hend : ∀ ch ∈ ([] : UnicodeString).head?, isBlank ch = true := by simp
      obtain ⟨cut, hcut, htoken, hstr⟩ := cutTokenEx_quoted text hend
      have hjoined : joined [text] = quoted text ++ [] := by simp [joined]
      rw [hjoined, cutTokens_some hcut, htoken, hstr]
      exact congrArg (text :: ·) ih
    | cons second tokens =>
      have hblank : ∀ ch ∈ (32 :: joined (second :: tokens)).head?, isBlank ch = true := by
        simp [isBlank]
      obtain ⟨cut, hcut, htoken, hstr⟩ := cutTokenEx_quoted text hblank
      have hjoined : joined (text :: second :: tokens) =
          quoted text ++ 32 :: joined (second :: tokens) := by
        simp [joined, List.intercalate]
      rw [hjoined, cutTokens_some hcut, htoken, hstr]
      exact congrArg (text :: ·) ih

end NetBox.Command.CutToken
