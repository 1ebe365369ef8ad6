import Mathlib.Data.List.Basic

/-! # The arguments of a command line

The rules by which the Microsoft C runtime splits a command line, except for the
name of the program. Blanks outside of quotes separate arguments. Backslashes are
literal unless a quote follows: then two of them are one, and an odd one makes the
quote literal. A quote that is not literal toggles quoting.
-/
namespace NetBox.Lib.CrtArguments

abbrev Code := UInt16

def quote : Code := 34
def bslash : Code := 92

def isBlank (c : Code) : Bool := c == 32 || c == 9

/-- The arguments that are complete, the one that has begun, the backslashes in
front of the next character, and whether it is quoted. -/
structure Scan where
  done : List (List Code)
  cur : Option (List Code)
  slashes : Nat
  quoted : Bool
deriving DecidableEq

def start : Scan := ⟨[], none, 0, false⟩

namespace Scan

/-- The argument that has begun, with `n` backslashes more. -/
def text (s : Scan) (n : Nat) : List Code := s.cur.getD [] ++ List.replicate n bslash

/-- All arguments, when the present one ends here. -/
def finish (s : Scan) : List (List Code) :=
  if s.cur = none ∧ s.slashes = 0 then s.done else s.done ++ [s.text s.slashes]

def step (s : Scan) (c : Code) : Scan :=
  if c = bslash then { s with slashes := s.slashes + 1 }
  else if c = quote then
    if s.slashes % 2 = 0 then ⟨s.done, some (s.text (s.slashes / 2)), 0, !s.quoted⟩
    else ⟨s.done, some (s.text (s.slashes / 2) ++ [quote]), 0, s.quoted⟩
  else if isBlank c && !s.quoted then ⟨s.finish, none, 0, false⟩
  else ⟨s.done, some (s.text s.slashes ++ [c]), 0, s.quoted⟩

def run (s : Scan) (line : List Code) : Scan := line.foldl step s

end Scan

def arguments (line : List Code) : List (List Code) := (start.run line).finish

/-- No quote is open at the end of the line. -/
def Closed (line : List Code) : Prop := (start.run line).quoted = false

/-- `a "b c" \"d` has three arguments. -/
example : arguments [97, 32, 34, 98, 32, 99, 34, 32, 92, 34, 100] =
    [[97], [98, 32, 99], [34, 100]] := by decide

namespace Scan

variable {s : Scan} {c : Code}

theorem run_append (s : Scan) (a b : List Code) : s.run (a ++ b) = (s.run a).run b :=
  List.foldl_append

theorem run_cons (s : Scan) (c : Code) (rest : List Code) :
    s.run (c :: rest) = (s.step c).run rest := rfl

theorem step_bslash (s : Scan) : s.step bslash = { s with slashes := s.slashes + 1 } := by
  rw [step, if_pos rfl]

theorem step_literal {j : Nat} (h : s.slashes = 2 * j + 1) :
    s.step quote = ⟨s.done, some (s.text j ++ [quote]), 0, s.quoted⟩ := by
  rw [step, if_neg (by decide), if_pos rfl, if_neg (by omega), show s.slashes / 2 = j by omega]

theorem step_toggle {j : Nat} (h : s.slashes = 2 * j) :
    s.step quote = ⟨s.done, some (s.text j), 0, !s.quoted⟩ := by
  rw [step, if_neg (by decide), if_pos rfl, if_pos (by omega), show s.slashes / 2 = j by omega]

theorem step_blank (hc : isBlank c = true) (hs : s.quoted = false) :
    s.step c = ⟨s.finish, none, 0, false⟩ := by
  have hne : c ≠ bslash ∧ c ≠ quote := by
    constructor <;> rintro rfl <;> exact absurd hc (by decide)
  rw [step, if_neg hne.1, if_neg hne.2, if_pos (by simp [hc, hs])]

theorem step_char (hslash : c ≠ bslash) (hquote : c ≠ quote)
    (h : isBlank c = false ∨ s.quoted = true) :
    s.step c = ⟨s.done, some (s.text s.slashes ++ [c]), 0, s.quoted⟩ := by
  rw [step, if_neg hslash, if_neg hquote, if_neg (by rcases h with h | h <;> simp [h])]

/-- What is complete stays. -/
theorem finish_done (s : Scan) (more : List (List Code)) :
    Scan.finish { s with done := more ++ s.done } = more ++ s.finish := by
  simp only [finish, text]
  split <;> simp

theorem step_done (s : Scan) (more : List (List Code)) (c : Code) :
    Scan.step { s with done := more ++ s.done } c =
      { s.step c with done := more ++ (s.step c).done } := by
  have htext : ∀ n, Scan.text { s with done := more ++ s.done } n = s.text n := fun _ => rfl
  simp only [step, htext, finish_done]
  split
  · rfl
  · split
    · split <;> rfl
    · split <;> rfl

theorem run_done (s : Scan) (more : List (List Code)) (line : List Code) :
    Scan.run { s with done := more ++ s.done } line =
      { s.run line with done := more ++ (s.run line).done } := by
  induction line generalizing s with
  | nil => rfl
  | cons c line ih => rw [run_cons, step_done, ih, run_cons]

end Scan

/-- Behind a blank the arguments of the rest are added to those of a line in
which no quote is open. -/
theorem arguments_append {line : List Code} (h : Closed line) (rest : List Code) :
    arguments (line ++ 32 :: rest) = arguments line ++ arguments rest := by
  have hrest := Scan.run_done start (start.run line).finish rest
  rw [show start.done = [] from rfl, List.append_nil] at hrest
  rw [arguments, Scan.run_append, Scan.run_cons, Scan.step_blank (by decide) h]
  exact (congrArg Scan.finish hrest).trans (Scan.finish_done _ _)

end NetBox.Lib.CrtArguments
