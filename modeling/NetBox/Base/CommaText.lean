import NetBox.Base.Url

/-! # Comma text

A list of strings is written as one text by `GetCommaText`, each string between quotes, and read
by `SetCommaText`, which knows nothing of quotes.
-/
namespace NetBox.Base.Text

open List

/-- The sum of two characters is a number, and the string is made of the character with that
number. -/
def getDelimitedText (delimiter quoteChar : WChar) (lines : List UnicodeString) : UnicodeString :=
  if lines = [[]] then [quoteChar + quoteChar]
  else
    (lines.flatMap fun line =>
      plus (plus (plus [quoteChar] line) [quoteChar]) [delimiter]).dropLast

def addToken (trimEmpty : Bool) (token : UnicodeString) : List UnicodeString :=
  if token ≠ [] ∨ trimEmpty = false then [token] else []

/-- `tokenize`, with what has been passed over since the last delimiter. `FindFirstOf` does not
look behind a U+0000. -/
def tokenize (delimiters : UnicodeString) (trimEmpty : Bool) (token : UnicodeString) :
    UnicodeString → List UnicodeString
  | [] => addToken trimEmpty token
  | ch :: str =>
    if ch = 0 then addToken trimEmpty (token ++ ch :: str)
    else if delimiters.contains ch then
      addToken trimEmpty token ++ tokenize delimiters trimEmpty [] str
    else tokenize delimiters trimEmpty (token ++ [ch]) str

def setDelimitedText (delimiter : WChar) (value : UnicodeString) : List UnicodeString :=
  tokenize (plus [delimiter] [10]) true [] value

def getCommaText (lines : List UnicodeString) : UnicodeString := getDelimitedText 44 34 lines

def setCommaText (value : UnicodeString) : List UnicodeString := setDelimitedText 44 value

variable {delimiters token : UnicodeString} {trimEmpty : Bool} {lines : List UnicodeString}

theorem flatten_addToken (trimEmpty : Bool) (token : UnicodeString) :
    (addToken trimEmpty token).flatten = token := by
  unfold addToken
  split
  next => simp
  next h => simp [Classical.not_not.mp (not_or.mp h).1]

/-- The tokens have all the characters that are no delimiters. -/
theorem count_tokenize {a : WChar} (ha : a ∉ delimiters) (token str : UnicodeString) :
    (tokenize delimiters trimEmpty token str).flatten.count a = token.count a + str.count a := by
  fun_induction tokenize delimiters trimEmpty token str with
  | case1 token => simp [flatten_addToken]
  | case2 token str => simp [flatten_addToken]
  | case3 token ch str _ hdelimiter ih =>
    have hne : ch ≠ a := by
      rintro rfl
      exact ha (contains_iff_mem.mp hdelimiter)
    simp [flatten_addToken, ih, hne]
  | case4 token ch str _ hdelimiter ih => simp [ih, Nat.add_assoc, count_cons]; omega

theorem plus_eq {lhs rhs : UnicodeString} (hlhs : 0 ∉ lhs) (hrhs : 0 ∉ rhs) :
    plus lhs rhs = lhs ++ rhs :=
  uptoNul_eq (by simp [hlhs, hrhs])

/-- Every string gets two quotes, and the comma behind the last one goes. -/
theorem count_quotes (hne : lines ≠ [[]]) (h : ∀ line ∈ lines, 0 ∉ line) :
    lines.flatten.count 34 + 2 * lines.length ≤ (getCommaText lines).count 34 := by
  have hquoted : lines.flatMap (fun line => plus (plus (plus [34] line) [34]) [44]) =
      lines.flatMap (fun line => 34 :: line ++ [34, 44]) := by
    refine flatMap_congr fun line hline => ?_
    have hline := h line hline
    have hquote : 0 ∉ [34] ++ line := by simpa using hline
    have hquotes : 0 ∉ [34] ++ line ++ [34] := by simpa using hline
    rw [plus_eq (by decide) hline, plus_eq hquote (by decide), plus_eq hquotes (by decide)]
    simp
  have hcount : (lines.flatMap fun line => 34 :: line ++ [34, 44]).count 34 =
      lines.flatten.count 34 + 2 * lines.length := by
    clear hne h hquoted
    induction lines with
    | nil => rfl
    | cons line lines ih =>
      simp only [flatMap_cons, count_append, ih, flatten_cons, length_cons]
      simp
      omega
  rw [getCommaText, getDelimitedText, if_neg hne, hquoted, ← hcount]
  rcases eq_nil_or_concat lines with rfl | ⟨front, line, rfl⟩
  · exact Nat.le_refl _
  · have hlast : 34 :: line ++ [34, 44] = (34 :: line ++ [34]) ++ [44] := by simp
    simp only [concat_eq_append, flatMap_append, flatMap_singleton]
    rw [hlast, ← append_assoc, dropLast_concat]
    simp

theorem zero_notMem_getCommaText (lines : List UnicodeString) : 0 ∉ getCommaText lines := by
  unfold getCommaText getDelimitedText
  split
  next => decide
  next =>
    intro hmem
    obtain ⟨line, -, hzero⟩ := mem_flatMap.mp (dropLast_subset _ hmem)
    exact zero_not_mem_uptoNul _ hzero

/-- Only the empty list is read back as it was written. -/
theorem setCommaText_getCommaText_iff (lines : List UnicodeString) :
    setCommaText (getCommaText lines) = lines ↔ lines = [] := by
  constructor
  · intro heq
    by_contra hlines
    by_cases hne : lines = [[]]
    · rw [hne] at heq
      revert heq
      decide
    have hcount : ∀ a ∉ plus [44] [10], lines.flatten.count a = (getCommaText lines).count a := by
      intro a ha
      have htokens : (setCommaText (getCommaText lines)).flatten.count a =
          ([] : UnicodeString).count a + (getCommaText lines).count a := count_tokenize ha [] _
      rw [heq, List.count_nil, Nat.zero_add] at htokens
      exact htokens
    have hnul : ∀ line ∈ lines, 0 ∉ line := by
      have hzero := hcount 0 (by decide)
      rw [List.count_eq_zero.mpr (zero_notMem_getCommaText lines), List.count_eq_zero] at hzero
      intro line hline hmem
      exact hzero (List.mem_flatten.mpr ⟨line, hline, hmem⟩)
    have hquotes := count_quotes hne hnul
    have hpos := List.length_pos_of_ne_nil hlines
    rw [hcount 34 (by decide)] at hquotes
    omega
  · rintro rfl
    rfl

/-- A string without any special character. -/
theorem comma_text_keeps_quotes : setCommaText (getCommaText [wstr "a"]) ≠ [wstr "a"] := by decide

end NetBox.Base.Text
