import NetBox.Base.Url
import NetBox.Lib.ShellWords

/-! # Quoting a name for the shell

`ShellQuoteStr` of Common.cpp puts a text in double quotes, with a backslash in
front of every character that is special there. Read by the rules of the shell
the text is one word again. A name that begins with a hyphen gets `./` in front,
so that it is not taken for an option.
-/
namespace NetBox.Command
open Base.Text Lib.ShellWords List

def specialChars (quote : WChar) : UnicodeString :=
  if quote = 39 then [] else wstr "$\\" ++ if quote = 34 then wstr "`\"" else []

def delimitStr (str : UnicodeString) (quote : WChar := doubleQuote) : UnicodeString :=
  let result := str.flatMap fun ch =>
    if (specialChars quote).contains ch then [backslash, ch] else [ch]
  if result.head? = some 45 then wstr "./" ++ result else result

def shellQuoteStr (str : UnicodeString) : UnicodeString :=
  [doubleQuote] ++ delimitStr str ++ [doubleQuote]

/-- The name as the command is to see it. -/
def commandName (str : UnicodeString) : UnicodeString :=
  if str.head? = some 45 then wstr "./" ++ str else str

theorem specialChars_doubleQuote (ch : WChar) :
    (specialChars doubleQuote).contains ch = escapable ch := by
  rw [Bool.eq_iff_iff]
  simp [specialChars, escapable, doubleQuote, escapeChar, wstr, or_comm, or_left_comm]

/-- A delimited text begins with a hyphen only when the text does. -/
theorem head?_delimited (str : UnicodeString) :
    (str.flatMap fun ch => if escapable ch then [escapeChar, ch] else [ch]).head? = some 45 ↔
      str.head? = some 45 := by
  cases str with
  | nil => simp
  | cons ch str =>
    rw [flatMap_cons]
    by_cases h : escapable ch = true
    · have hne : ch ≠ 45 := by
        rintro rfl
        exact absurd h (by decide)
      simp [h, hne, escapeChar]
    · simp [h]

theorem delimitStr_doubleQuote (str : UnicodeString) :
    delimitStr str =
      (commandName str).flatMap fun ch => if escapable ch then [escapeChar, ch] else [ch] := by
  have hdelimited : (str.flatMap fun ch =>
      if (specialChars doubleQuote).contains ch then [backslash, ch] else [ch]) =
      str.flatMap fun ch => if escapable ch then [escapeChar, ch] else [ch] := by
    simp only [specialChars_doubleQuote]
    rfl
  rw [delimitStr, commandName, hdelimited]
  by_cases h : str.head? = some 45
  · rw [if_pos ((head?_delimited str).mpr h), if_pos h, flatMap_append]
    rfl
  · rw [if_neg (mt (head?_delimited str).mp h), if_neg h]

/-- Quoted for the shell, a name is read as it is, in front of whatever
follows and as a part of the word that has begun. -/
theorem words_shellQuoteStr_append (str rest : UnicodeString) (word : Option UnicodeString) :
    words .unquoted word (shellQuoteStr str ++ rest) =
      words .unquoted (some (word.getD [] ++ commandName str)) rest := by
  rw [shellQuoteStr, append_assoc, append_assoc, singleton_append,
    singleton_append, words_open, delimitStr_doubleQuote, words_double]

/-- `ShellQuoteStr` gives exactly one word, which is the name. Nothing in it is
expanded. -/
theorem words_shellQuoteStr (str : UnicodeString) :
    words .unquoted none (shellQuoteStr str) = some [commandName str] := by
  have h := words_shellQuoteStr_append str [] none
  rwa [List.append_nil] at h

end NetBox.Command
