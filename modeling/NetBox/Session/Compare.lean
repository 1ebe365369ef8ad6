import Mathlib.Algebra.Ring.Rat
import NetBox.Session.Settings

/-! # Comparing sessions

`TSessionData::IsSame` goes through the properties, and then through the flags of
SSH and SFTP bugs. What it does with a difference depends on the macro of the
property and on whether the caller wants a list of the differences.
-/
namespace NetBox.Session

open Base.Text Lib List

/-- The properties that are compared. -/
def comparedProperties (advancedOnly : Bool) : List (Macro × Setting) :=
  (if advancedOnly then [] else baseProperties) ++ advancedProperties

/-- The flags of bugs that are compared. -/
def comparedBugs : List Setting := sshBugs.map .bug ++ sftpBugs.map .sftpBug

def Macro.isHandler : Macro → Bool
  | .handler => true
  | _ => false

section Compare

variable (r : Utf8Reader) (a b : TSessionData)

/-- `IsZero` of the difference of two times. As a double it is rounded, and from the
middle between 2 ^ -52 and the number before it on it is no longer below 2 ^ -52. -/
def isZero (difference : Rat) : Bool :=
  decide (-(2 ^ 54 - 1) / 2 ^ 106 < difference ∧ difference < (2 ^ 54 - 1) / 2 ^ 106)

/-- The comparison of a setting. -/
def same : Setting → Bool
  | .timeDifference => isZero (a.timeDifference - b.timeDifference)
  | s => decide (a.get r s = b.get r s)

/-- One property: the result so far and the list of differences. The result of
the two plain macros is cleared in the branch that extends the list. -/
def compareProperty (withList : Bool) (acc : Bool × List Setting) (p : Macro × Setting) :
    Bool × List Setting :=
  if same r a b p.2 then acc
  else if p.1.isHandler then (false, if withList then acc.2 ++ [p.2] else acc.2)
  else if withList then (false, acc.2 ++ [p.2])
  else acc

/-- `IsSame` with the list of differences, when there is one. -/
def isSameListed (advancedOnly withList : Bool) : Bool × List Setting :=
  let acc := (comparedProperties advancedOnly).foldl (compareProperty r a b withList) (true, [])
  if comparedBugs.all (same r a b) then acc else (false, acc.2)

/-- `IsSame` without a list. -/
def isSame (advancedOnly : Bool) : Bool := (isSameListed r a b advancedOnly false).1

/-- All settings that are compared. -/
def comparedSettings (advancedOnly : Bool) : List Setting :=
  (comparedProperties advancedOnly).map Prod.snd ++ comparedBugs

/-- What the comparison is for: the result says whether all the settings are the
same, with and without a list, and the list has the settings that differ. -/
def ComparesAll (advancedOnly : Bool) : Prop :=
  (isSame r a b advancedOnly = true ↔
      ∀ s ∈ comparedSettings advancedOnly, a.get r s = b.get r s) ∧
    (isSameListed r a b advancedOnly true).1 = isSame r a b advancedOnly ∧
    ∀ s, s ∈ (isSameListed r a b advancedOnly true).2 ↔
      s ∈ comparedSettings advancedOnly ∧ a.get r s ≠ b.get r s

/-- No flag of a bug differs, two times that pass for equal are equal, and a property
with a plain macro differs only together with one that is a handler. -/
def HandlerDecides (advancedOnly : Bool) : Prop :=
  (∀ s ∈ comparedBugs, a.get r s = b.get r s) ∧
    (isZero (a.timeDifference - b.timeDifference) = true → a.timeDifference = b.timeDifference) ∧
    ((∃ p ∈ comparedProperties advancedOnly, p.1 ≠ .handler ∧ a.get r p.2 ≠ b.get r p.2) →
      ∃ p ∈ comparedProperties advancedOnly, p.1 = .handler ∧ a.get r p.2 ≠ b.get r p.2)

theorem same_iff {s : Setting} (hs : s ≠ .timeDifference) :
    same r a b s = true ↔ a.get r s = b.get r s := by
  cases s with
  | timeDifference => exact absurd rfl hs
  | _ => exact decide_eq_true_iff

theorem same_of_eq {s : Setting} (h : a.get r s = b.get r s) : same r a b s = true := by
  by_cases hs : s = .timeDifference
  · subst hs
    have htime : a.timeDifference = b.timeDifference := h
    rw [same, htime, Rat.sub_self]
    decide +kernel
  · exact (same_iff r a b hs).mpr h

theorem isHandler_iff {m : Macro} : m.isHandler = true ↔ m = .handler := by
  cases m <;> simp [Macro.isHandler]

/-! ## The properties -/

/-- What the loop over the properties leaves. -/
theorem foldl_compareProperty (withList : Bool) (properties : List (Macro × Setting))
    (acc : Bool × List Setting) :
    properties.foldl (compareProperty r a b withList) acc =
      (acc.1 && properties.all fun p => same r a b p.2 || !(withList || p.1.isHandler),
        acc.2 ++ if withList then (properties.map Prod.snd).filter fun s => !same r a b s
          else []) := by
  induction properties generalizing acc with
  | nil => cases withList <;> simp
  | cons p properties ih =>
    rw [foldl_cons, ih, compareProperty]
    cases hs : same r a b p.2 with
    | true => simp [hs]
    | false => cases hm : p.1.isHandler <;> cases withList <;> simp [hs, hm]

theorem all_comparedSettings (p : Setting → Prop) (advancedOnly : Bool) :
    (∀ s ∈ comparedSettings advancedOnly, p s) ↔
      (∀ q ∈ comparedProperties advancedOnly, p q.2) ∧ ∀ s ∈ comparedBugs, p s := by
  rw [comparedSettings, forall_mem_append, forall_mem_map]

theorem bugs_iff : comparedBugs.all (same r a b) = true ↔
    ∀ s ∈ comparedBugs, a.get r s = b.get r s := by
  have hbugs : ∀ s ∈ comparedBugs, s ≠ .timeDifference := by decide
  rw [all_eq_true]
  exact forall₂_congr fun s hs => same_iff r a b (hbugs s hs)

/-- With a list every property decides the result, without one only the handlers. -/
theorem isSameListed_fst (advancedOnly withList : Bool) :
    (isSameListed r a b advancedOnly withList).1 = true ↔
      (∀ p ∈ comparedProperties advancedOnly, (withList = true ∨ p.1 = .handler) →
          same r a b p.2 = true) ∧
        ∀ s ∈ comparedBugs, a.get r s = b.get r s := by
  rw [isSameListed, foldl_compareProperty, ← bugs_iff]
  dsimp only
  cases hbugs : comparedBugs.all (same r a b) with
  | false => simp
  | true =>
    rw [if_pos rfl, Bool.true_and, all_eq_true, and_iff_left rfl]
    refine forall₂_congr fun p _ => ?_
    rw [← isHandler_iff, ← Bool.or_eq_true]
    cases same r a b p.2 <;> cases (withList || p.1.isHandler) <;> simp

theorem isSame_iff (advancedOnly : Bool) :
    isSame r a b advancedOnly = true ↔
      (∀ p ∈ comparedProperties advancedOnly, p.1 = .handler → a.get r p.2 = b.get r p.2) ∧
        ∀ s ∈ comparedBugs, a.get r s = b.get r s := by
  have hsecret : ∀ advancedOnly, ∀ p ∈ comparedProperties advancedOnly,
      p.1 = .handler → p.2 ≠ .timeDifference := by decide +kernel
  rw [isSame, isSameListed_fst]
  refine and_congr_left fun _ => forall₂_congr fun p hp => ?_
  simp only [Bool.false_eq_true, false_or]
  exact forall_congr' fun hm => same_iff r a b (hsecret advancedOnly p hp hm)

theorem isSameListed_iff (advancedOnly : Bool) :
    (isSameListed r a b advancedOnly true).1 = true ↔
      (∀ p ∈ comparedProperties advancedOnly, same r a b p.2 = true) ∧
        ∀ s ∈ comparedBugs, a.get r s = b.get r s := by
  rw [isSameListed_fst]
  simp

theorem mem_isSameListed (advancedOnly : Bool) {s : Setting} :
    s ∈ (isSameListed r a b advancedOnly true).2 ↔
      s ∈ (comparedProperties advancedOnly).map Prod.snd ∧ ¬ same r a b s = true := by
  have hlist : (isSameListed r a b advancedOnly true).2 =
      ((comparedProperties advancedOnly).map Prod.snd).filter fun s => !same r a b s := by
    rw [isSameListed, foldl_compareProperty]
    dsimp only
    split <;> simp
  rw [hlist, mem_filter, Bool.not_eq_true', ← Bool.not_eq_true]

/-! ## The whole comparison -/

/-- A flag of a bug is no property. -/
theorem bug_not_property (advancedOnly : Bool) {s : Setting} (hs : s ∈ comparedBugs) :
    s ∉ (comparedProperties advancedOnly).map Prod.snd := by
  have hnot : ∀ advancedOnly, ∀ s ∈ comparedBugs,
      s ∉ (comparedProperties advancedOnly).map Prod.snd := by decide +kernel
  exact hnot advancedOnly s hs

theorem timeDifference_compared (advancedOnly : Bool) :
    .timeDifference ∈ comparedSettings advancedOnly := by
  have hmem : ∀ advancedOnly, .timeDifference ∈ comparedSettings advancedOnly := by decide +kernel
  exact hmem advancedOnly

theorem handlerDecides_of_comparesAll {advancedOnly : Bool}
    (h : ComparesAll r a b advancedOnly) : HandlerDecides r a b advancedOnly := by
  obtain ⟨hresult, -, hlist⟩ := h
  have hlisted : ∀ s ∈ comparedSettings advancedOnly, a.get r s ≠ b.get r s →
      s ∈ (comparedProperties advancedOnly).map Prod.snd ∧ ¬ same r a b s = true :=
    fun s hs hdiff => (mem_isSameListed r a b advancedOnly).mp ((hlist s).mpr ⟨hs, hdiff⟩)
  have hbugs : ∀ s ∈ comparedBugs, a.get r s = b.get r s := by
    intro s hs
    by_contra hdiff
    exact bug_not_property advancedOnly hs (hlisted s (mem_append_right _ hs) hdiff).1
  refine ⟨hbugs, fun hzero => ?_, ?_⟩
  · by_contra hdiff
    exact (hlisted _ (timeDifference_compared advancedOnly) hdiff).2 hzero
  · rintro ⟨p, hp, -, hdiff⟩
    by_contra hnone
    have hall := hresult.mp ((isSame_iff r a b advancedOnly).mpr
      ⟨fun p hp hm => by_contra fun hd => hnone ⟨p, hp, hm, hd⟩, hbugs⟩)
    exact hdiff (hall p.2 (mem_append_left _ (mem_map_of_mem hp)))

theorem comparesAll_of_handlerDecides {advancedOnly : Bool}
    (h : HandlerDecides r a b advancedOnly) : ComparesAll r a b advancedOnly := by
  obtain ⟨hbugs, htime, hplain⟩ := h
  have hsame : ∀ s, same r a b s = true ↔ a.get r s = b.get r s := by
    intro s
    by_cases hs : s = .timeDifference
    · exact ⟨fun h => by subst hs; exact htime h, same_of_eq r a b⟩
    · exact same_iff r a b hs
  have hresult : isSame r a b advancedOnly = true ↔
      ∀ s ∈ comparedSettings advancedOnly, a.get r s = b.get r s := by
    rw [isSame_iff, all_comparedSettings]
    refine and_congr_left fun _ => ⟨fun hhandler p hp => ?_, fun hall p hp _ => hall p hp⟩
    by_contra hdiff
    by_cases hm : p.1 = .handler
    · exact hdiff (hhandler p hp hm)
    · obtain ⟨q, hq, hqm, hqdiff⟩ := hplain ⟨p, hp, hm, hdiff⟩
      exact hqdiff (hhandler q hq hqm)
  refine ⟨hresult, ?_, fun s => ?_⟩
  · rw [Bool.eq_iff_iff, hresult, isSameListed_iff, all_comparedSettings]
    simp only [hsame]
  · rw [mem_isSameListed, comparedSettings, mem_append, hsame]
    refine and_congr_left fun hdiff => ⟨.inl, fun hs => hs.resolve_right fun hbug => ?_⟩
    exact hdiff (hbugs s hbug)

theorem isSame_equivalence : Equivalence fun a b => isSame r a b false = true where
  refl a := (isSame_iff r a a false).mpr ⟨fun _ _ _ => rfl, fun _ _ => rfl⟩
  symm {a b} h := by
    obtain ⟨hp, hb⟩ := (isSame_iff r a b false).mp h
    exact (isSame_iff r b a false).mpr
      ⟨fun p hmem hm => (hp p hmem hm).symm, fun s hs => (hb s hs).symm⟩
  trans {a b c} h h' := by
    obtain ⟨hp, hb⟩ := (isSame_iff r a b false).mp h
    obtain ⟨hp', hb'⟩ := (isSame_iff r b c false).mp h'
    exact (isSame_iff r a c false).mpr
      ⟨fun p hmem hm => (hp p hmem hm).trans (hp' p hmem hm),
        fun s hs => (hb s hs).trans (hb' s hs)⟩

/-- When a comparison is right: no flag of a bug differs, the times are equal where
`IsZero` says so, and where a plain property differs a secret differs as well. The
comparison is an equivalence whatever it misses. -/
theorem comparison_iff (advancedOnly : Bool) :
    (ComparesAll r a b advancedOnly ↔ HandlerDecides r a b advancedOnly) ∧
      Equivalence fun a b => isSame r a b false = true :=
  ⟨⟨handlerDecides_of_comparesAll r a b, comparesAll_of_handlerDecides r a b⟩,
    isSame_equivalence r⟩

end Compare

/-- The sessions differ in the port, which only the form with a list notices. A
flag of a bug is not listed, and neither are times that are 2 ^ -55 apart. -/
theorem port_difference_missed :
    let a := factoryDefaults []
    let b := { a with number := Function.update a.number .portNumber 21 }
    let c := { a with bug := Function.update a.bug .sbHMAC2 asOn }
    let d := { a with timeDifference := 1 / 2 ^ 55 }
    a.get utf8Reader (.number .portNumber) ≠ b.get utf8Reader (.number .portNumber) ∧
      isSame utf8Reader a b false = true ∧ (isSameListed utf8Reader a b false true).1 = false ∧
      a.get utf8Reader (.bug .sbHMAC2) ≠ c.get utf8Reader (.bug .sbHMAC2) ∧
      (isSameListed utf8Reader a c false true).2 = [] ∧
      a.get utf8Reader .timeDifference ≠ d.get utf8Reader .timeDifference ∧
      isSameListed utf8Reader a d false true = (true, []) := by
  decide +kernel

end NetBox.Session
