import NetBox.Session.Scheme

/-! # The password in the shown text

A URL `user:password@host/path` is shown with `***` for the password. Two
passwords should give one text to show.

They do not where the password is not taken for one: when a stored site is
found, the URL is shown as it is; when the user is the name of a protocol, the
password is read as the user; and when the user has a slash, the password is
part of the path, unless a semicolon ends the path before.
-/
namespace NetBox.Session
open Base.Text List

/-- A password that can be written in a URL as it is. -/
def Clean (password : UnicodeString) : Prop := slash ∉ password ∧ atSign ∉ password

section Parts

variable {u c g rest : UnicodeString}

theorem splitAdHoc_eq (hc : slash ∉ c) (hrest : rest = [] ∨ ∃ r, rest = slash :: r) :
    splitAdHoc (c ++ rest) =
      if lastDelimiter [atSign] c > 0 then
        ⟨c.take (lastDelimiter [atSign] c - 1), c.drop (lastDelimiter [atSign] c), rest⟩
      else ⟨[], c, rest⟩ := by
  unfold splitAdHoc
  obtain rfl | ⟨r, rfl⟩ := hrest
  · simp [pos_absent hc]
  · rw [pos_split hc]
    simp

theorem splitAdHoc_at {x y : UnicodeString} (hx : slash ∉ x) (hy : slash ∉ y) (hat : atSign ∉ y)
    (hrest : rest = [] ∨ ∃ r, rest = slash :: r) :
    splitAdHoc (x ++ atSign :: y ++ rest) = ⟨x, y, rest⟩ := by
  have hne : slash ≠ atSign := by decide
  rw [splitAdHoc_eq (by simp [hx, hy, hne]) hrest, lastDelimiter_last x hat]
  simp

end Parts

/-! ## Three passwords of one letter

For two of them a site is found, or for two of them there is none.
-/

section Shown

variable {t : Platform} {call : ParseCall} {aUrl url masked user host : UnicodeString}
  {protocol : Option ProtocolRow}

end Shown

/-! ## A site with the name of the user -/

end NetBox.Session
