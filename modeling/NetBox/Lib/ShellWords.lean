import Mathlib.Data.List.Basic

/-! # The words of a shell command

The token rules of the POSIX shell for a simple command, as far as words are
made of plain text and quotes. A text in which anything else would happen has no
words here: an expansion, an operator, a pattern, a comment, or a quote that is
not closed.
-/
namespace NetBox.Lib.ShellWords

open List

abbrev Code := UInt16

inductive Quoting
  | unquoted
  | single
  | double
deriving DecidableEq

def singleQuote : Code := 39
def doubleQuote : Code := 34
def escapeChar : Code := 92
def newline : Code := 10

/-- A blank between words. -/
def isBlank (c : Code) : Bool := c == 32 || c == 9

/-- `|&;<>()$`, the backquote, the newline and `*?[#~=%!{}` mean something of
their own when they are not quoted. -/
def isActive (c : Code) : Bool :=
  [124, 38, 59, 60, 62, 40, 41, 36, 96, 10, 42, 63, 91, 35, 126, 61, 37, 33, 123, 125].contains c

/-- `$` and the backquote expand in double quotes, too. -/
def expands (c : Code) : Bool := c == 36 || c == 96

/-- What a backslash takes the meaning of in double quotes. -/
def escapable (c : Code) : Bool := c == 36 || c == 96 || c == doubleQuote || c == escapeChar

/-- The word so far with one more character. -/
def push (word : Option (List Code)) (c : Code) : Option (List Code) := some (word.getD [] ++ [c])

/-- The words of a text, when `word` has been read of the first one. -/
def words : Quoting → Option (List Code) → List Code → Option (List (List Code))
  | .unquoted, word, [] => some word.toList
  | .single, _, [] => none
  | .double, _, [] => none
  | .single, word, c :: rest =>
    if c = singleQuote then words .unquoted word rest else words .single (push word c) rest
  | .double, word, c :: rest =>
    if c = doubleQuote then words .unquoted word rest
    else if expands c then none
    else if c = escapeChar then
      match rest with
      | [] => none
      | d :: rest =>
        if escapable d then words .double (push word d) rest
        else if d = newline then words .double word rest
        else words .double (push (push word c) d) rest
    else words .double (push word c) rest
  | .unquoted, word, c :: rest =>
    if c = doubleQuote then words .double (some (word.getD [])) rest
    else if c = singleQuote then words .single (some (word.getD [])) rest
    else if c = escapeChar then
      match rest with
      | [] => none
      | d :: rest =>
        if d = newline then words .unquoted word rest else words .unquoted (push word d) rest
    else if isBlank c then (words .unquoted none rest).map (word.toList ++ ·)
    else if isActive c then none
    else words .unquoted (push word c) rest

/-- `"$HOME` is open and would expand; `a "b c"` has two words. -/
example : words .unquoted none [97, 32, 34, 98, 32, 99, 34] = some [[97], [98, 32, 99]] := by
  decide

variable {text w rest : List Code} {c : Code} {word : Option (List Code)}

theorem words_open : words .unquoted word (doubleQuote :: rest) =
    words .double (some (word.getD [])) rest := by
  rw [words.eq_def]
  exact if_pos rfl

theorem words_close : words .double word (doubleQuote :: rest) = words .unquoted word rest := by
  rw [words.eq_def]
  exact if_pos rfl

theorem words_escaped (h : escapable c = true) :
    words .double word (escapeChar :: c :: rest) = words .double (push word c) rest := by
  rw [words, if_neg (by decide), if_neg (by decide), if_pos rfl, if_pos h]

theorem words_plain (h : escapable c = false) :
    words .double word (c :: rest) = words .double (push word c) rest := by
  simp only [escapable, Bool.or_eq_false_iff, beq_eq_false_iff_ne] at h
  obtain ⟨⟨⟨hdollar, hback⟩, hquote⟩, hescape⟩ := h
  rw [words.eq_def]
  simp [hquote, hescape, expands, hdollar, hback]

/-- A text whose special characters are all escaped is taken literally in
double quotes. -/
theorem words_double (text rest w : List Code) :
    words .double (some w)
      (text.flatMap (fun c => if escapable c then [escapeChar, c] else [c]) ++ doubleQuote :: rest) =
      words .unquoted (some (w ++ text)) rest := by
  induction text generalizing w with
  | nil => simp [words_close]
  | cons c text ih =>
    rw [flatMap_cons]
    by_cases h : escapable c = true
    · simp only [if_pos h, cons_append, nil_append]
      rw [words_escaped h, push, Option.getD_some, ih]
      simp
    · simp only [if_neg h, cons_append, nil_append]
      rw [words_plain (eq_false_of_ne_true h), push, Option.getD_some, ih]
      simp

end NetBox.Lib.ShellWords
