import Mathlib.Data.List.Basic

/-! # A machine that reads its input piece by piece

A fold over the pieces of an input, and a machine that is compared with it: as
long as nothing has failed the two agree, and a failure of one is a failure of
the other.
-/
namespace NetBox.Lib.Feed

open List

variable {σ α : Type}

/-- Agreement over all pieces. A machine that takes pieces, and that agrees with
the fold on each piece unless both fail, agrees with the fold over the whole input. -/
theorem foldl_take (take : σ → List α → σ) (feed : σ → α → σ) (failed ok : σ → Prop)
    (room : σ → List α → Prop)
    (hroom : ∀ s piece rest, room s (piece ++ rest) → room (piece.foldl feed s) rest)
    (hfeed : ∀ s (piece : List α), failed s → failed (piece.foldl feed s))
    (htake : ∀ s piece, failed s → failed (take s piece))
    (hagree : ∀ s piece rest, ¬failed s → ok s → room s (piece ++ rest) →
      (failed (piece.foldl feed s) ∧ failed (take s piece)) ∨
        (take s piece = piece.foldl feed s ∧ ok (take s piece)))
    (s : σ) (hs : ok s) (pieces : List (List α)) (hr : room s pieces.flatten) :
    (failed (pieces.flatten.foldl feed s) ∧ failed (pieces.foldl take s)) ∨
      (¬failed (pieces.flatten.foldl feed s) ∧
        pieces.foldl take s = pieces.flatten.foldl feed s) := by
  have hpieces : ∀ (pieces : List (List α)) (s : σ), failed s → failed (pieces.foldl take s) := by
    intro pieces
    induction pieces with
    | nil => exact fun s h => h
    | cons piece pieces ih => exact fun s h => ih _ (htake s piece h)
  by_cases hfailed : failed s
  · exact .inl ⟨hfeed s _ hfailed, hpieces pieces s hfailed⟩
  induction pieces generalizing s with
  | nil => exact .inr ⟨hfailed, rfl⟩
  | cons piece pieces ih =>
    rw [flatten_cons] at hr ⊢
    rw [foldl_append, foldl_cons]
    rcases hagree s piece pieces.flatten hfailed hs hr with ⟨hf, ht⟩ | ⟨heq, hok⟩
    · exact .inl ⟨hfeed _ _ hf, hpieces pieces _ ht⟩
    · rw [heq] at hok ⊢
      by_cases hfailed' : failed (piece.foldl feed s)
      · exact .inl ⟨hfeed _ _ hfailed', hpieces pieces _ hfailed'⟩
      · exact ih _ hok (hroom s piece _ hr) hfailed'

end NetBox.Lib.Feed
