import Mathlib.Logic.Basic
import Mathlib.Data.List.Induction

/-! # Runs of a machine that takes one action at a time

`step s a = none` says that action `a` cannot be taken in state `s`. A run
may be asked to meet a condition on every action it takes (`ok`), which reads
the state before the action. What one action preserves, a run preserves.
-/
namespace NetBox.Lib.Run

open List

variable {σ α : Type}

/-- `t` is reached from `s` by actions that all meet `ok` when taken. -/
inductive Reaches (step : σ → α → Option σ) (ok : σ → α → Prop) (s : σ) : σ → Prop
  | refl : Reaches step ok s s
  | tail {t u : σ} {a : α} : Reaches step ok s t → ok t a → step t a = some u →
      Reaches step ok s u

variable {step : σ → α → Option σ} {ok : σ → α → Prop} {s t u : σ}

/-- The invariant rule: it holds at the start and every action keeps it. -/
theorem Reaches.invariant {P : σ → Prop} (h : Reaches step ok s t) (h0 : P s)
    (hstep : ∀ t a u, P t → ok t a → step t a = some u → P u) : P t := by
  induction h with
  | refl => exact h0
  | tail _ hok hs ih => exact hstep _ _ _ ih hok hs

theorem Reaches.trans (h : Reaches step ok s t) (h' : Reaches step ok t u) :
    Reaches step ok s u := by
  induction h' with
  | refl => exact h
  | tail _ hok hs ih => exact .tail ih hok hs

/-- The state an action list leads to, `none` when one of the actions is not
possible or does not meet `ok`. -/
def runs (step : σ → α → Option σ) (ok : σ → α → Prop) [∀ s a, Decidable (ok s a)] :
    σ → List α → Option σ
  | s, [] => some s
  | s, a :: as => if ok s a then (step s a).bind fun t => runs step ok t as else none

theorem reaches_of_runs [∀ s a, Decidable (ok s a)] {as : List α}
    (h : runs step ok s as = some t) : Reaches step ok s t := by
  induction as generalizing s with
  | nil => simp only [runs, Option.some.injEq] at h; exact h ▸ .refl
  | cons a as ih =>
    simp only [runs, Option.ite_none_right_eq_some] at h
    obtain ⟨hok, h⟩ := h
    obtain ⟨u, hu, h⟩ := Option.bind_eq_some_iff.mp h
    exact .trans (.tail .refl hok hu) (ih h)

/-- A run that was computed, with what was computed of its last state. -/
theorem exists_reaches [∀ s a, Decidable (ok s a)] {as : List α} {β : Type} {f : σ → β} {b : β}
    (h : (runs step ok s as).map f = some b) : ∃ t, Reaches step ok s t ∧ f t = b := by
  obtain ⟨t, ht, hb⟩ := Option.map_eq_some_iff.mp h
  exact ⟨t, reaches_of_runs ht, hb⟩

/-- What holds of the actions done so far and the state they led to, when each
further action of the list keeps it. -/
theorem foldlM_history {α β : Type} {l : List α} {f : β → α → Option β}
    {P : List α → β → Prop} {b t : β} (h : l.foldlM f b = some t) (h0 : P [] b)
    (hstep : ∀ done a b b', (done ++ [a]) <+: l → P done b → f b a = some b' →
      P (done ++ [a]) b') : P l t := by
  induction l using List.reverseRecOn generalizing t with
  | nil =>
    obtain rfl := Option.some.inj h
    exact h0
  | append_singleton done a ih =>
    rw [List.foldlM_append] at h
    obtain ⟨b', hdone, hlast⟩ := Option.bind_eq_some_iff.mp h
    have hlast : f b' a = some t := by simpa using hlast
    refine hstep done a b' t (prefix_refl _) (ih hdone ?_) hlast
    intro done' a' c c' hpre
    exact hstep done' a' c c' (hpre.trans (prefix_append _ _))

end NetBox.Lib.Run
