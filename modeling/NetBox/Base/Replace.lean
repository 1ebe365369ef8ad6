import NetBox.Base.Url
import NetBox.Lib.Edit
import NetBox.Lib.Rewrite

/-! # Replacing a text by another one

`AnsiReplaceStr` of Sysutils.cpp, which `StringReplaceAll` and `ReplaceStr` call
as it is. The loop searches the text it has rewritten so far from the beginning,
so that it also finds occurrences which its own replacements have made. It is set
against the replacement of the occurrences in the original text, from left to
right.

Here a text may hold U+0000. `Pos` and `Insert` take their arguments as
NUL-terminated ones, while `Replace` deletes as many characters as the text to be
replaced really has.
-/
namespace NetBox.Base.Text
open Lib.Edit Lib.Rewrite List

/-- `UnicodeString::Pos`. -/
def posNul (sub str : UnicodeString) : Nat := pos (uptoNul sub) (uptoNul str)

/-- One round of the loop, if there is one. -/
def replaceFirst (what byWhat str : UnicodeString) : Option UnicodeString :=
  match posNul what str with
  | 0 => none
  | p + 1 => some (insertAt (deleteAt str p what.length) p (uptoNul byWhat))

/-- `AnsiReplaceStr`, as far as it gets in so many rounds. -/
def replaceStr (what byWhat : UnicodeString) : Nat → UnicodeString → Option UnicodeString
  | 0, _ => none
  | fuel + 1, str =>
    match replaceFirst what byWhat str with
    | some str => replaceStr what byWhat fuel str
    | none => some str

/-- The call comes back, with this text. -/
def ReplaceReturns (what byWhat str result : UnicodeString) : Prop :=
  ∃ fuel, replaceStr what byWhat fuel str = some result

/-! ## What it is meant to do -/

/-- What is behind an occurrence is shorter. -/
theorem drop_found_lt {what rest : UnicodeString} {p : Nat} (hwhat : what ≠ [])
    (h : pos what rest = p + 1) : (rest.drop (p + what.length)).length < rest.length := by
  obtain ⟨b, hb, hle⟩ := pos_some h
  have hlen := congrArg List.length hb
  have hpos : 0 < what.length := length_pos_of_ne_nil hwhat
  simp only [length_append, length_take, length_drop] at hlen ⊢
  omega

/-- The occurrences that do not overlap, taken from the left, are replaced. What
is put in for them is not looked at. -/
def replaceAll (what byWhat rest : UnicodeString) : UnicodeString :=
  match _hpos : pos what rest with
  | 0 => rest
  | p + 1 =>
    if _hwhat : what = [] then rest
    else rest.take p ++ byWhat ++ replaceAll what byWhat (rest.drop (p + what.length))
termination_by rest.length
decreasing_by exact drop_found_lt ‹_› ‹_›

/-- Each search of the loop finds the next occurrence in the original text. The
text is so far `done`, which is rewritten already, and the `rest` of the original
one. So no occurrence begins in `done`. -/
def FindsNext (what byWhat done rest : UnicodeString) : Prop :=
  match _hpos : pos what rest with
  | 0 => posNul what (done ++ rest) = 0
  | p + 1 =>
    if _hwhat : what = [] then False
    else posNul what (done ++ rest) = done.length + (p + 1) ∧ 0 ∉ byWhat ∧
      FindsNext what byWhat (done ++ rest.take p ++ byWhat) (rest.drop (p + what.length))
termination_by rest.length
decreasing_by exact drop_found_lt ‹_› ‹_›

/-! ## Rounds of the loop -/

variable {what byWhat str result : UnicodeString}

theorem replaceReturns_iff_of_none (h : posNul what str = 0) :
    ReplaceReturns what byWhat str result ↔ result = str := by
  have hnone : replaceFirst what byWhat str = none := by rw [replaceFirst, h]
  constructor
  · rintro ⟨_ | fuel, hfuel⟩
    · cases hfuel
    · rw [replaceStr, hnone] at hfuel
      exact (Option.some.inj hfuel).symm
  · rintro rfl
    exact ⟨1, by rw [replaceStr, hnone]⟩

theorem replaceReturns_iff_of_some {next : UnicodeString}
    (h : replaceFirst what byWhat str = some next) :
    ReplaceReturns what byWhat str result ↔ ReplaceReturns what byWhat next result := by
  constructor
  · rintro ⟨_ | fuel, hfuel⟩
    · cases hfuel
    · rw [replaceStr, h] at hfuel
      exact ⟨fuel, hfuel⟩
  · rintro ⟨fuel, hfuel⟩
    exact ⟨fuel + 1, by rw [replaceStr, h]; exact hfuel⟩

theorem ReplaceReturns.unique {result' : UnicodeString} (h : ReplaceReturns what byWhat str result)
    (h' : ReplaceReturns what byWhat str result') : result = result' := by
  obtain ⟨fuel, hfuel⟩ := h
  induction fuel generalizing str with
  | zero => cases hfuel
  | succ fuel ih =>
    rw [replaceStr] at hfuel
    cases hpos : posNul what str with
    | zero =>
      have hnone : replaceFirst what byWhat str = none := by rw [replaceFirst, hpos]
      rw [hnone] at hfuel
      rw [(replaceReturns_iff_of_none hpos).mp h', Option.some.inj hfuel]
    | succ p =>
      obtain ⟨next, hnext⟩ : ∃ next, replaceFirst what byWhat str = some next := by
        rw [replaceFirst, hpos]
        exact ⟨_, rfl⟩
      rw [hnext] at hfuel
      exact ih ((replaceReturns_iff_of_some hnext).mp h') hfuel

/-- What holds of every round holds of the text that is returned. -/
theorem ReplaceReturns.invariant {P : UnicodeString → Prop}
    (hstep : ∀ str next, replaceFirst what byWhat str = some next → P str → P next)
    (h : ReplaceReturns what byWhat str result) (hstr : P str) :
    P result ∧ posNul what result = 0 := by
  obtain ⟨fuel, hfuel⟩ := h
  induction fuel generalizing str with
  | zero => cases hfuel
  | succ fuel ih =>
    rw [replaceStr] at hfuel
    cases hnext : replaceFirst what byWhat str with
    | some next =>
      rw [hnext] at hfuel
      exact ih (hstep str next hnext hstr) hfuel
    | none =>
      rw [hnext] at hfuel
      obtain rfl := Option.some.inj hfuel
      refine ⟨hstr, ?_⟩
      rw [replaceFirst] at hnext
      split at hnext
      · assumption
      · cases hnext

variable {a b : UnicodeString}

theorem replaceFirst_append (hzero : 0 ∉ byWhat) (h : posNul what (a ++ what ++ b) = a.length + 1) :
    replaceFirst what byWhat (a ++ what ++ b) = some (a ++ byWhat ++ b) := by
  simp only [replaceFirst, h, uptoNul_eq hzero]
  simp [insertAt, deleteAt, drop_append]

/-! ## Rounds of the replacement from the left -/

/-- Over the occurrences of `what` from the left. -/
theorem found_induction {motive : UnicodeString → Prop} (hwhat : what ≠ [])
    (absent : ∀ rest, pos what rest = 0 → motive rest)
    (found : ∀ u c, pos what (u ++ what ++ c) = u.length + 1 → motive c → motive (u ++ what ++ c))
    (rest : UnicodeString) : motive rest := by
  induction hn : rest.length using Nat.strong_induction_on generalizing rest with
  | _ n ih =>
    cases hpos : pos what rest with
    | zero => exact absent rest hpos
    | succ p =>
      obtain ⟨c, hc, hle⟩ := pos_some hpos
      have hlen : (rest.take p).length = p := length_take_of_le hle
      have hlt : c.length < n := by
        have hwlen : 0 < what.length := length_pos_of_ne_nil hwhat
        have := congrArg List.length hc
        simp only [length_append] at this
        omega
      rw [hc]
      exact found _ c (by rw [← hc, hpos, hlen]) (ih _ hlt c rfl)

theorem replaceAll_absent (h : pos what str = 0) : replaceAll what byWhat str = str := by
  rw [replaceAll.eq_def]
  split
  · rfl
  next hpos => rw [h] at hpos; cases hpos

theorem drop_found (u c : UnicodeString) :
    (u ++ what ++ c).drop (u.length + what.length) = c := by
  rw [← length_append, drop_left]

theorem replaceAll_found {u c : UnicodeString} (hwhat : what ≠ [])
    (h : pos what (u ++ what ++ c) = u.length + 1) :
    replaceAll what byWhat (u ++ what ++ c) = u ++ byWhat ++ replaceAll what byWhat c := by
  rw [replaceAll.eq_def]
  split
  next hpos => rw [h] at hpos; cases hpos
  next p hpos =>
    obtain rfl : u.length = p := by rw [h] at hpos; exact Nat.succ.inj hpos
    rw [dif_neg hwhat, drop_found, append_assoc u, take_left]

theorem findsNext_absent {done : UnicodeString} (h : pos what str = 0) :
    FindsNext what byWhat done str ↔ posNul what (done ++ str) = 0 := by
  rw [FindsNext.eq_def]
  split
  · rfl
  next hpos => rw [h] at hpos; cases hpos

theorem findsNext_found {done u c : UnicodeString} (hwhat : what ≠ [])
    (h : pos what (u ++ what ++ c) = u.length + 1) :
    FindsNext what byWhat done (u ++ what ++ c) ↔
      posNul what (done ++ u ++ what ++ c) = (done ++ u).length + 1 ∧ 0 ∉ byWhat ∧
        FindsNext what byWhat (done ++ u ++ byWhat) c := by
  rw [FindsNext.eq_def]
  split
  next hpos => rw [h] at hpos; cases hpos
  next p hpos =>
    obtain rfl : u.length = p := by rw [h] at hpos; exact Nat.succ.inj hpos
    rw [dif_neg hwhat, drop_found, append_assoc u, take_left, length_append]
    simp only [append_assoc, Nat.add_assoc]

/-! ## When the loop does what it is meant to do -/

theorem replaceReturns_of_findsNext (hwhat : what ≠ []) (rest : UnicodeString) :
    ∀ done, FindsNext what byWhat done rest →
      ReplaceReturns what byWhat (done ++ rest) (done ++ replaceAll what byWhat rest) := by
  induction rest using found_induction hwhat with
  | absent rest hpos =>
    intro done h
    rw [replaceReturns_iff_of_none ((findsNext_absent hpos).mp h), replaceAll_absent hpos]
  | found u c hpos ih =>
    intro done h
    obtain ⟨hsearch, hzero, hnext⟩ := (findsNext_found hwhat hpos).mp h
    have hwhole : done ++ (u ++ what ++ c) = done ++ u ++ what ++ c := by
      simp only [append_assoc]
    rw [replaceAll_found hwhat hpos, hwhole,
      replaceReturns_iff_of_some (replaceFirst_append hzero hsearch)]
    simpa only [append_assoc] using ih (done ++ u ++ byWhat) hnext

/-! ## Texts without U+0000 -/

/-- The three texts of a call hold no U+0000. -/
structure NulFree (what byWhat str : UnicodeString) : Prop where
  what : 0 ∉ what
  byWhat : 0 ∉ byWhat
  str : 0 ∉ str

theorem NulFree.posNul (h : NulFree what byWhat str) : posNul what str = pos what str := by
  rw [Text.posNul, uptoNul_eq h.what, uptoNul_eq h.str]

theorem NulFree.replaceFirst (h : NulFree what byWhat str) {next : UnicodeString}
    (hnext : replaceFirst what byWhat str = some next) :
    ∃ a b, str = a ++ what ++ b ∧ next = a ++ byWhat ++ b ∧ pos what str = a.length + 1 := by
  cases hpos : Text.posNul what str with
  | zero => rw [Text.replaceFirst, hpos] at hnext; cases hnext
  | succ p =>
    have hplain := hpos
    rw [h.posNul] at hplain
    obtain ⟨b, hb, hle⟩ := pos_some hplain
    have hlen : (str.take p).length = p := length_take_of_le hle
    have hround : Text.replaceFirst what byWhat (str.take p ++ what ++ b) =
        some (str.take p ++ byWhat ++ b) :=
      replaceFirst_append h.byWhat (by rw [← hb, hpos, hlen])
    rw [← hb, hnext] at hround
    exact ⟨str.take p, b, hb, Option.some.inj hround, by rw [hplain, hlen]⟩

theorem NulFree.next (h : NulFree what byWhat str) {next : UnicodeString}
    (hnext : Text.replaceFirst what byWhat str = some next) : NulFree what byWhat next := by
  obtain ⟨a, b, rfl, rfl, -⟩ := h.replaceFirst hnext
  have hstr := h.str
  simp only [mem_append, not_or] at hstr
  exact ⟨h.what, h.byWhat, by simp [hstr.1.1, hstr.2, h.byWhat]⟩

/-- A text that is returned has no occurrence any more. -/
theorem NulFree.returned (h : NulFree what byWhat str)
    (hreturns : ReplaceReturns what byWhat str result) (a b : UnicodeString) :
    result ≠ a ++ what ++ b := by
  obtain ⟨hfree, hpos⟩ := hreturns.invariant (P := NulFree what byWhat)
    (fun _ _ hnext hfree => hfree.next hnext) h
  rintro rfl
  rw [hfree.posNul] at hpos
  exact (pos_le a what b).1 hpos

/-- An occurrence before the next one of the original text is the end of it.
The loop does not return what replacing the later one leads to. -/
theorem not_replaceReturns_of_early {a b c d r : UnicodeString}
    (hside : Unbordered what ∨ ¬ byWhat <+: what) (hfree : NulFree what byWhat (a ++ what ++ b))
    (hpos : posNul what (a ++ what ++ b) = a.length + 1)
    (heq : a ++ what ++ b = c ++ what ++ d) (hlt : a.length < c.length) :
    ¬ ReplaceReturns what byWhat (a ++ what ++ b) (c ++ byWhat ++ r) := by
  intro hreturns
  by_cases hinside : what <+: byWhat
  · -- what is put in has an occurrence itself
    obtain ⟨more, rfl⟩ := hinside
    exact hfree.returned hreturns c (more ++ r) (by simp only [append_assoc])
  rcases hside with hborder | hside
  · obtain ⟨more, rfl⟩ := hborder.disjoint heq hlt
    exact hfree.returned hreturns a (more ++ byWhat ++ r) (by simp only [append_assoc])
  · obtain ⟨x, y, hxy, hrule⟩ := exists_departs hside hinside
    have hround := replaceFirst_append hfree.byWhat hpos
    have hstart : Departs x y (a ++ byWhat ++ b) (c ++ byWhat ++ r) :=
      departs_early hrule heq hlt
    rw [replaceReturns_iff_of_some hround] at hreturns
    have hstay := hreturns.invariant
      (P := fun str => NulFree what byWhat str ∧ Departs x y str (c ++ byWhat ++ r))
      (fun str next hnext h => by
        obtain ⟨front, back, hstr, hchanged, -⟩ := h.1.replaceFirst hnext
        exact ⟨h.1.next hnext, h.2.rewrites hxy hrule ⟨front, back, hstr, hchanged⟩⟩)
      ⟨hfree.next hround, hstart⟩
    exact hstay.1.2.ne hxy rfl

theorem findsNext_of_replaceReturns (hwhat : what ≠ [])
    (hside : Unbordered what ∨ ¬ byWhat <+: what) (rest : UnicodeString) :
    ∀ done, NulFree what byWhat (done ++ rest) →
      ReplaceReturns what byWhat (done ++ rest) (done ++ replaceAll what byWhat rest) →
      FindsNext what byWhat done rest := by
  induction rest using found_induction hwhat with
  | absent rest hpos =>
    intro done hfree hreturns
    rw [replaceAll_absent hpos] at hreturns
    rw [findsNext_absent hpos]
    by_contra hne
    obtain ⟨p, hp⟩ := Nat.exists_eq_succ_of_ne_zero hne
    rw [hfree.posNul] at hp
    obtain ⟨b, hb, -⟩ := pos_some hp
    exact hfree.returned hreturns _ _ hb
  | found u c hpos ih =>
    intro done hfree hreturns
    have hwhole : done ++ (u ++ what ++ c) = done ++ u ++ what ++ c := by
      simp only [append_assoc]
    have hmeant : done ++ (u ++ byWhat ++ replaceAll what byWhat c) =
        done ++ u ++ byWhat ++ replaceAll what byWhat c := by simp only [append_assoc]
    rw [replaceAll_found hwhat hpos, hwhole, hmeant] at hreturns
    rw [hwhole] at hfree
    obtain ⟨hne, hle⟩ := pos_le (done ++ u) what c
    rw [← hfree.posNul] at hne hle
    obtain ⟨q, hq⟩ := Nat.exists_eq_succ_of_ne_zero hne
    have hplain := hq
    rw [hfree.posNul] at hplain
    obtain ⟨b, hb, hqle⟩ := pos_some hplain
    have hlen : ((done ++ u ++ what ++ c).take q).length = q := length_take_of_le hqle
    have hnext : q = (done ++ u).length := by
      by_contra hother
      generalize (done ++ u ++ what ++ c).take q = a at hb hlen
      subst hlen
      refine not_replaceReturns_of_early hside (hb ▸ hfree) (hb ▸ hq) hb.symm ?_ (hb ▸ hreturns)
      omega
    rw [findsNext_found hwhat hpos]
    have hround := replaceFirst_append hfree.byWhat (hnext ▸ hq)
    rw [replaceReturns_iff_of_some hround] at hreturns
    exact ⟨hnext ▸ hq, hfree.byWhat, ih _ (hfree.next hround) hreturns⟩

/-- `ReplaceStr` replaces from the left, once, where each of its searches meets
the next occurrence of the original text. This is also needed, for texts
without U+0000, unless the replacement is a beginning of a text to be replaced
that has borders. -/
theorem replaceStr_replaceAll (hwhat : what ≠ []) (byWhat str : UnicodeString) :
    (FindsNext what byWhat [] str →
      ReplaceReturns what byWhat str (replaceAll what byWhat str)) ∧
    (NulFree what byWhat str → Unbordered what ∨ ¬ byWhat <+: what →
      (ReplaceReturns what byWhat str (replaceAll what byWhat str) ↔
        FindsNext what byWhat [] str)) := by
  have henough : FindsNext what byWhat [] str →
      ReplaceReturns what byWhat str (replaceAll what byWhat str) :=
    replaceReturns_of_findsNext hwhat str []
  refine ⟨henough, fun hfree hside => ⟨fun hreturns => ?_, henough⟩⟩
  exact findsNext_of_replaceReturns hwhat hside str [] hfree hreturns

theorem replaceStr_replaceAll_blanks : wstr "a b" ≠ [] ∧
    (NulFree (wstr "a b") (wstr "-") (wstr "a b c") ∧ ¬ wstr "-" <+: wstr "a b") ∧
    (ReplaceReturns (wstr "a b") (wstr "-") (wstr "a b c")
        (replaceAll (wstr "a b") (wstr "-") (wstr "a b c")) ↔
      FindsNext (wstr "a b") (wstr "-") [] (wstr "a b c")) := by
  have hwhat : wstr "a b" ≠ [] := by decide
  have hfree : NulFree (wstr "a b") (wstr "-") (wstr "a b c") :=
    ⟨by decide, by decide, by decide⟩
  have hside : ¬ wstr "-" <+: wstr "a b" := by decide
  exact ⟨hwhat, ⟨hfree, hside⟩, (replaceStr_replaceAll hwhat _ _).2 hfree (.inr hside)⟩

/-! ## Texts in pieces -/

/-- No occurrence of `what` begins in the text, whatever follows it. -/
def Quiet (what a : UnicodeString) : Prop := ∀ s, s ≠ [] → s <:+ a → ∀ str, ¬ what <+: s ++ str

theorem quiet_nil : Quiet what [] := fun _ hs hsuffix => absurd (suffix_nil.mp hsuffix) hs

theorem quiet_cons {ch : WChar} {a : UnicodeString} :
    Quiet what (ch :: a) ↔ (∀ str, ¬ what <+: ch :: (a ++ str)) ∧ Quiet what a := by
  constructor
  · exact fun h => ⟨h _ (cons_ne_nil _ _) suffix_rfl,
      fun s hs hsuffix => h s hs (hsuffix.trans (suffix_cons _ _))⟩
  · rintro ⟨hhere, h⟩ s hs hsuffix
    rcases suffix_cons_iff.mp hsuffix with rfl | hsuffix
    · exact hhere
    · exact h s hs hsuffix

theorem Quiet.append (ha : Quiet what a) (hb : Quiet what b) : Quiet what (a ++ b) := by
  induction a with
  | nil => exact hb
  | cons ch a ih =>
    obtain ⟨hhere, ha⟩ := quiet_cons.mp ha
    refine quiet_cons.mpr ⟨fun str => ?_, ih ha⟩
    have hnone := hhere (b ++ str)
    rwa [← append_assoc] at hnone

theorem Quiet.pos {a : UnicodeString} (h : Quiet what a) :
    pos what (a ++ str) = if pos what str = 0 then 0 else a.length + pos what str := by
  induction a with
  | nil => by_cases hpos : Text.pos what str = 0 <;> simp [hpos]
  | cons ch a ih =>
    obtain ⟨hhere, h⟩ := quiet_cons.mp h
    have hnone : ¬ what.isPrefixOf (ch :: (a ++ str)) = true :=
      fun hprefix => hhere str (List.isPrefixOf_iff_prefix.mp hprefix)
    rw [cons_append, Text.pos, if_neg hnone, ih h]
    by_cases hpos : Text.pos what str = 0
    · simp [hpos]
    · rw [if_neg hpos, if_neg hpos, length_cons]
      split <;> omega

/-- Pieces of a text that are `what` are replaced, and the others stay. -/
inductive Pieces (what byWhat : UnicodeString) : UnicodeString → UnicodeString → Prop
  | nil : Pieces what byWhat [] []
  | keep {piece old new : UnicodeString} : Quiet what piece → Pieces what byWhat old new →
      Pieces what byWhat (piece ++ old) (piece ++ new)
  | change {old new : UnicodeString} : Pieces what byWhat old new →
      Pieces what byWhat (what ++ old) (byWhat ++ new)

/-- The loop replaces the pieces, one after the other. -/
theorem Pieces.returns {old new a : UnicodeString} (h : Pieces what byWhat old new)
    (hwhat : what ≠ []) (hquiet : Quiet what byWhat) (ha : Quiet what a)
    (hfree : NulFree what byWhat (a ++ old)) :
    ReplaceReturns what byWhat (a ++ old) (a ++ new) := by
  induction h generalizing a with
  | nil =>
    refine (replaceReturns_iff_of_none ?_).mpr rfl
    rw [hfree.posNul, ha.pos]
    simp [Text.pos, hwhat]
  | keep hpiece _ ih =>
    rw [← append_assoc] at hfree
    rw [← append_assoc, ← append_assoc]
    exact ih (ha.append hpiece) hfree
  | @change old new _ ih =>
    rw [← append_assoc] at hfree
    have hhere : pos what (what ++ old) = 1 := by
      have hpos := pos_le [] what old
      rw [nil_append, length_nil] at hpos
      omega
    have hpos : posNul what (a ++ what ++ old) = a.length + 1 := by
      rw [hfree.posNul, append_assoc, ha.pos, hhere]
      rfl
    rw [← append_assoc, ← append_assoc,
      replaceReturns_iff_of_some (replaceFirst_append hfree.byWhat hpos)]
    refine ih (ha.append hquiet) ⟨hfree.what, hfree.byWhat, ?_⟩
    have hstr := hfree.str
    simp only [mem_append, not_or] at hstr ⊢
    exact ⟨⟨hstr.1.1, hfree.byWhat⟩, hstr.2⟩

/-! ## When it does not come back -/

/-- The loop has no end when what is put in has an occurrence itself. -/
theorem not_replaceReturns_of_inside (hinside : what <:+: byWhat)
    (hfree : NulFree what byWhat (a ++ what ++ b)) :
    ¬ ReplaceReturns what byWhat (a ++ what ++ b) result := by
  intro hreturns
  obtain ⟨front, back, hinside⟩ := hinside
  obtain ⟨⟨-, c, d, hresult⟩, -⟩ := hreturns.invariant
    (P := fun str => NulFree what byWhat str ∧ ∃ c d, str = c ++ what ++ d)
    (fun str next hnext h => by
      obtain ⟨c, d, -, hchanged, -⟩ := h.1.replaceFirst hnext
      refine ⟨h.1.next hnext, c ++ front, back ++ d, ?_⟩
      simp only [hchanged, ← hinside, append_assoc])
    ⟨hfree, a, b, rfl⟩
  exact hfree.returned hreturns c d hresult

/-- Doubling the exclamation mark of `!` does not end. -/
theorem replaceStr_bang_hangs :
    ¬ ∃ result, ReplaceReturns (wstr "!") (wstr "!!") (wstr "!") result := by
  rintro ⟨result, hreturns⟩
  exact not_replaceReturns_of_inside (List.infix_append' [] (wstr "!") (wstr "!"))
    ⟨by decide, by decide, by decide⟩ (a := []) (b := []) hreturns

end NetBox.Base.Text
