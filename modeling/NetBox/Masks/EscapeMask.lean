import NetBox.Masks.CmpName
import NetBox.Lib.Edit

/-! # Masks that stand for one name

`EscapeMask` of FileMasks.cpp puts each character of a name that means something in a
mask into a class of its own. The loop ends before the last character, so a `?` or a `*`
there stays a wildcard. A `[` there is harmless, as nothing closes it. An extension behind
`*.` is such a mask for one name too, and this is what lets the matcher skip the search
for its place.
-/

namespace NetBox.Masks
open Base.Text Lib.Edit List

def maskSymbols : UnicodeString := [question, star, openBracket]

/-- The loop of `EscapeMask`; `i` counts from 0, `Index` of the source from 1. -/
def escapeLoop (result : UnicodeString) (i : Nat) : UnicodeString :=
  if i + 1 < result.length then
    if maskSymbols.contains (result.getD i 0) then
      escapeLoop (insertAt (insertAt result i [openBracket]) (i + 2) [closeBracket]) (i + 3)
    else escapeLoop result (i + 1)
  else result
termination_by result.length - i
decreasing_by
  · simp [insertAt]
    omega
  · omega

def escapeMask (s : UnicodeString) : UnicodeString :=
  if lastDelimiter maskSymbols s > 0 then escapeLoop s 0 else s

/-- Something in the mask stands for other characters. A class of a single character does
not, and neither does a bracket that is not closed. -/
def hasWildcard : UnicodeString → Bool
  | [] => false
  | ch :: mask =>
    if ch = question ∨ ch = star then true
    else if ch = openBracket ∧ mask.contains closeBracket then
      mask.tail.head? != some closeBracket || hasWildcard (mask.drop 2)
    else hasWildcard mask
termination_by mask => mask.length
decreasing_by
  all_goals simp only [length_drop, length_cons]
  all_goals omega

/-- The name is `s` up to case, or `s` without the dot at its end. -/
def Names (upper : WChar → WChar) (searchMode : Bool) (s name : UnicodeString) : Prop :=
  name.map upper = s.map upper ∨
    (searchMode = false ∧ ∃ stem, s = stem ++ [dot] ∧ name.map upper = stem.map upper)

/-- The mask made of `s` has no wildcard and matches `s` and nothing else. -/
def Exact (a : CaseApi) (s : UnicodeString) : Prop :=
  hasWildcard (escapeMask s) = false ∧
    ∀ name, 0 ∉ name → (maskMatches a (escapeMask s) name = true ↔ Names a.upper false s name)

variable {a : CaseApi} {searchMode : Bool} {s mask str : UnicodeString} {ch p : WChar}

/-! ## What the loop makes of a name -/

/-- All characters but the last are escaped. -/
def escaped : UnicodeString → UnicodeString
  | [] => []
  | [ch] => [ch]
  | ch :: next :: s =>
    if ch ∈ maskSymbols then openBracket :: ch :: closeBracket :: escaped (next :: s)
    else ch :: escaped (next :: s)

theorem escapeLoop_eq (front s : UnicodeString) :
    escapeLoop (front ++ s) front.length = front ++ escaped s := by
  fun_induction escaped s generalizing front with
  | case1 => rw [escapeLoop, if_neg (by simp)]
  | case2 ch => rw [escapeLoop, if_neg (by simp)]
  | case3 ch next s hch ih =>
    have hinsert : insertAt (insertAt (front ++ ch :: next :: s) front.length [openBracket])
        (front.length + 2) [closeBracket] =
          (front ++ [openBracket, ch, closeBracket]) ++ next :: s := by
      rw [← Nat.add_zero front.length, insertAt_after, Nat.add_zero, insertAt_after,
        append_assoc]
      rfl
    have hlength : front.length + 3 = (front ++ [openBracket, ch, closeBracket]).length := by simp
    rw [escapeLoop, if_pos (by simp), if_pos (by simpa using hch), hinsert, hlength, ih,
      append_assoc]
    rfl
  | case4 ch next s hch ih =>
    have hsplit : front ++ ch :: next :: s = (front ++ [ch]) ++ next :: s := by simp
    have hlength : front.length + 1 = (front ++ [ch]).length := by simp
    rw [escapeLoop, if_pos (by simp), if_neg (by simpa using hch), hsplit, hlength, ih,
      append_assoc]
    rfl

theorem not_mem_of_lastDelimiterFrom {ds : UnicodeString} {n : Nat}
    (h : lastDelimiterFrom ds s n = 0) : ∀ i < n, ∀ ch, s[i]? = some ch → ch ∉ ds := by
  induction n with
  | zero => exact fun i hi => absurd hi (Nat.not_lt_zero i)
  | succ n ih =>
    have hn : isDelimiter ds s (n + 1) = false := by
      by_contra hd
      rw [lastDelimiterFrom, if_pos (Bool.not_eq_false _ ▸ hd)] at h
      exact absurd h (Nat.succ_ne_zero n)
    rw [lastDelimiterFrom, hn, if_neg Bool.false_ne_true] at h
    intro i hi ch hch
    rcases Nat.lt_succ_iff_lt_or_eq.mp hi with hlt | rfl
    · exact ih h i hlt ch hch
    · simpa [isDelimiter, hch] using hn

theorem head?_escaped_dot (s : UnicodeString) : (escaped (dot :: s)).head? = some dot := by
  cases s with
  | nil => rfl
  | cons next s => rw [escaped, if_neg (by decide), head?_cons]

theorem escaped_of_plain (h : ∀ ch ∈ s, ch ∉ maskSymbols) : escaped s = s := by
  fun_induction escaped s with
  | case1 | case2 => rfl
  | case3 ch next s hch => exact absurd hch (h ch mem_cons_self)
  | case4 ch next s _ ih => rw [ih fun ch hch => h ch (mem_cons_of_mem _ hch)]

theorem escapeMask_eq (s : UnicodeString) : escapeMask s = escaped s := by
  unfold escapeMask
  split
  · exact escapeLoop_eq [] s
  next h =>
    refine (escaped_of_plain fun ch hch => ?_).symm
    obtain ⟨i, hi, hget⟩ := getElem_of_mem hch
    refine not_mem_of_lastDelimiterFrom (Nat.eq_zero_of_not_pos h) i hi ch ?_
    rw [getElem?_eq_getElem hi, hget]

/-! ## The names of such a mask -/

variable {upper : WChar → WChar}

theorem names_nil : Names upper searchMode [] str ↔ str = [] := by
  simp [Names]

/-- Unless a dot at the end is all there is, the first characters agree. -/
theorem names_cons (h : p = dot → s ≠ []) :
    Names upper searchMode (p :: s) str ↔
      ∃ ch rest, str = ch :: rest ∧ upper p = upper ch ∧ Names upper searchMode s rest := by
  have hstem : ∀ stem, p :: s = stem ++ [dot] ↔ ∃ tail, stem = p :: tail ∧ s = tail ++ [dot] := by
    intro stem
    cases stem with
    | nil => simpa using h
    | cons q tail =>
      simp only [cons_append, List.cons.injEq]
      exact ⟨fun ⟨he, hs⟩ => ⟨tail, ⟨he.symm, rfl⟩, hs⟩, fun ⟨_, ⟨he, ht⟩, hs⟩ => ⟨he.symm, ht ▸ hs⟩⟩
  cases str with
  | nil => simp [Names, hstem]
  | cons ch rest =>
    simp only [Names, hstem, map_cons, List.cons.injEq]
    constructor
    · rintro (⟨heq, hrest⟩ | ⟨hmode, _, ⟨tail, rfl, hs⟩, heq⟩)
      · exact ⟨ch, rest, ⟨rfl, rfl⟩, heq.symm, .inl hrest⟩
      · obtain ⟨heq, hrest⟩ := List.cons.inj heq
        exact ⟨ch, rest, ⟨rfl, rfl⟩, heq.symm, .inr ⟨hmode, tail, hs, hrest⟩⟩
    · rintro ⟨_, _, ⟨rfl, rfl⟩, heq, hrest | ⟨hmode, tail, hs, hrest⟩⟩
      · exact .inl ⟨heq.symm, hrest⟩
      · exact .inr ⟨hmode, p :: tail, ⟨tail, rfl, hs⟩, by rw [map_cons, heq, hrest]⟩

theorem names_cons_of_rest {P : UnicodeString → Prop} (h : p = dot → s ≠ []) (hstr : 0 ∉ str)
    (hrest : ∀ {rest : UnicodeString}, 0 ∉ rest → (P rest ↔ Names upper searchMode s rest)) :
    (∃ ch rest, str = ch :: rest ∧ upper p = upper ch ∧ P rest) ↔
      Names upper searchMode (p :: s) str := by
  rw [names_cons h]
  refine exists_congr fun ch => exists_congr fun rest => and_congr_right fun heq =>
    and_congr_right fun _ => hrest fun hzero => hstr ?_
  rw [heq]
  exact mem_cons_of_mem _ hzero

theorem names_dot :
    Names upper searchMode [dot] str ↔
      (∃ ch rest, str = ch :: rest ∧ upper dot = upper ch ∧ rest = []) ∨
        (str = [] ∧ searchMode = false) := by
  simp only [Names, map_cons, map_nil, map_eq_singleton_iff]
  refine or_congr ⟨?_, ?_⟩ ⟨?_, ?_⟩
  · rintro ⟨ch, rfl, heq⟩
    exact ⟨ch, [], rfl, heq.symm, rfl⟩
  · rintro ⟨ch, _, rfl, heq, rfl⟩
    exact ⟨ch, rfl, heq.symm⟩
  · rintro ⟨hmode, stem, hs, heq⟩
    obtain rfl : stem = [] := by simpa using congrArg List.dropLast hs.symm
    exact ⟨map_eq_nil_iff.mp heq, hmode⟩
  · rintro ⟨rfl, hmode⟩
    exact ⟨hmode, [], rfl, rfl⟩

variable {one : WChar → WChar → Bool}

theorem cmpNameBody_nil (hstr : 0 ∉ str) :
    cmpNameBody a one searchMode [] str = true ↔ str = [] := by
  rw [cmpNameBody, beq_iff_eq, upper_headD_eq_zero hstr]

/-- A dot of the mask is one of the name, or the name is over and so is the mask. -/
theorem cmpNameBody_dot (hstr : 0 ∉ str) :
    cmpNameBody a one searchMode (dot :: mask) str = true ↔
      (∃ ch rest, str = ch :: rest ∧ a.upper dot = a.upper ch ∧
        cmpNameBody a one searchMode mask rest = true) ∨
      (str = [] ∧ searchMode = false ∧ mask.head? ≠ some dot ∧
        cmpNameBody a one searchMode mask [] = true) := by
  have hdot : a.upper dot = dot := a.upper_self (by decide)
  rw [cmpNameBody_other_eq (by rw [hdot]; decide)]
  cases str with
  | nil =>
    rw [headD_nil, a.upper_zero, hdot, if_neg (by decide)]
    simp [and_assoc]
  | cons ch rest =>
    have hch : a.upper ch ≠ 0 := fun he => hstr (a.upper_eq_zero.mp he ▸ mem_cons_self)
    rw [headD_cons, tail_cons]
    split
    next heq => simp [heq]
    next hne => simp [hne, hch]

/-- A class of a single character that means something is that character. -/
theorem cmpNameBody_escaped (hp : p ∈ maskSymbols) :
    cmpNameBody a (· == ·) searchMode (openBracket :: p :: closeBracket :: mask) str = true ↔
      ∃ ch rest, str = ch :: rest ∧ a.upper p = a.upper ch ∧
        cmpNameBody a (· == ·) searchMode mask rest = true := by
  have hsubset : ∀ p ∈ maskSymbols, p ∈ specials ∧ p ≠ 0 := forall_mem_of_all (by decide)
  obtain ⟨hspecial, hzero⟩ := hsubset p hp
  have hupper : ∀ ch, a.upper p = a.upper ch ↔ p = ch := by
    intro ch
    rw [a.upper_self hspecial, eq_comm, a.upper_eq_iff hspecial, eq_comm]
  rw [cmpNameBody_bracket_eq (a.upper_self (by decide)), if_neg (by simp),
    if_pos (by simp)]
  cases str with
  | nil => simp [hzero]
  | cons ch rest => simp [hupper]

/-- A bracket at the end of the mask is no class. -/
theorem cmpNameBody_openBracket :
    cmpNameBody a one searchMode [openBracket] str = true ↔
      ∃ ch rest, str = ch :: rest ∧ a.upper openBracket = a.upper ch ∧
        cmpNameBody a one searchMode [] rest = true := by
  have hbracket : a.upper openBracket = openBracket := a.upper_self (by decide)
  rw [cmpNameBody_bracket_eq hbracket, if_pos (by decide), hbracket]
  cases str with
  | nil =>
    rw [headD_nil, a.upper_zero]
    simp [show (openBracket == 0) = false by decide]
  | cons ch rest => simp

/-- The mask of a name that does not end with a wildcard matches that name only. -/
theorem cmpNameBody_names (hs : 0 ∉ s) (hlast : s.getLast? ≠ some star ∧ s.getLast? ≠ some question)
    (hstr : 0 ∉ str) :
    cmpNameBody a (· == ·) searchMode (escaped s) str = true ↔
      Names a.upper searchMode s str := by
  fun_induction escaped s generalizing str with
  | case1 => rw [cmpNameBody_nil hstr, names_nil]
  | case2 ch =>
    have hnil : ∀ {rest : UnicodeString}, 0 ∉ rest →
        (cmpNameBody a (· == ·) searchMode [] rest = true ↔ Names a.upper searchMode [] rest) :=
      fun h => (cmpNameBody_nil h).trans names_nil.symm
    by_cases hbracket : ch = openBracket
    · rw [hbracket, cmpNameBody_openBracket]
      exact names_cons_of_rest (by decide) hstr hnil
    by_cases hdot : ch = dot
    · rw [hdot, cmpNameBody_dot hstr, names_dot]
      refine or_congr (exists_congr fun ch => exists_congr fun rest => and_congr_right fun heq =>
        and_congr_right fun _ => cmpNameBody_nil fun hzero => hstr ?_) ?_
      · rw [heq]
        exact mem_cons_of_mem _ hzero
      · simp [cmpNameBody, a.upper_zero]
    · have hzero : ch ≠ 0 := fun he => hs (he ▸ mem_cons_self)
      rw [cmpNameBody_literal (by simp_all)]
      exact names_cons_of_rest (fun he => absurd he hdot) hstr hnil
  | case3 ch next s hch ih =>
    rw [cmpNameBody_escaped hch]
    exact names_cons_of_rest (fun _ => cons_ne_nil _ _) hstr
      (ih (fun h => hs (mem_cons_of_mem _ h)) (by simpa using hlast))
  | case4 ch next s hch ih =>
    have ih : ∀ rest, 0 ∉ rest → (cmpNameBody a (· == ·) searchMode (escaped (next :: s)) rest = true ↔
        Names a.upper searchMode (next :: s) rest) := fun _ hzero =>
      ih (fun h => hs (mem_cons_of_mem _ h)) (by simpa using hlast) hzero
    by_cases hdot : ch = dot
    · subst hdot
      rw [cmpNameBody_dot hstr,
        names_cons_of_rest (fun _ => cons_ne_nil _ _) hstr fun h => ih _ h,
        or_iff_left_iff_imp]
      rintro ⟨rfl, -, hhead, hmatch⟩
      -- the mask would have to be over, and another dot is not skipped
      by_cases hnext : next = dot
      · exact absurd (hnext ▸ head?_escaped_dot s) hhead
      · obtain ⟨_, _, heq, -⟩ :=
          (names_cons fun he => absurd he hnext).mp ((ih [] not_mem_nil).mp hmatch)
        cases heq
    · have hzero : ch ≠ 0 := fun he => hs (he ▸ mem_cons_self)
      rw [cmpNameBody_literal (by simp_all [maskSymbols])]
      exact names_cons_of_rest (fun he => absurd he hdot) hstr fun h => ih _ h

theorem zero_not_mem_escaped (hs : 0 ∉ s) : 0 ∉ escaped s := by
  fun_induction escaped s with
  | case1 | case2 => exact hs
  | case3 ch next s hch ih =>
    have ih := ih fun h => hs (mem_cons_of_mem _ h)
    have hzero : ch ≠ 0 := fun he => hs (he ▸ mem_cons_self)
    simp [ih, hzero.symm, show ¬ (0 : WChar) = openBracket by decide,
      show ¬ (0 : WChar) = closeBracket by decide]
  | case4 ch next s hch ih =>
    have ih := ih fun h => hs (mem_cons_of_mem _ h)
    have hzero : ch ≠ 0 := fun he => hs (he ▸ mem_cons_self)
    simp [ih, hzero.symm]

/-! ## Wildcards that are left -/

theorem hasWildcard_escaped (s : UnicodeString) :
    hasWildcard (escaped s) = true ↔ s.getLast? = some star ∨ s.getLast? = some question := by
  fun_induction escaped s with
  | case1 => simp [hasWildcard]
  | case2 ch => simp [hasWildcard, or_comm]
  | case3 ch next s hch ih =>
    rw [hasWildcard, if_neg (by decide), if_pos (by simp), getLast?_cons_cons, ← ih]
    simp
  | case4 ch next s hch ih =>
    have hch : ch ≠ question ∧ ch ≠ star ∧ ch ≠ openBracket := by simpa [maskSymbols] using hch
    rw [hasWildcard, if_neg (by simp [hch]), if_neg (by simp [hch]), getLast?_cons_cons, ih]

/-- The mask made of a name stands for that name just when no wildcard is at its end. -/
theorem escapeMask_exact_iff (a : CaseApi) (hs : 0 ∉ s) :
    Exact a s ↔ s.getLast? ≠ some star ∧ s.getLast? ≠ some question := by
  rw [Exact, escapeMask_eq]
  constructor
  · rintro ⟨hwild, -⟩
    rw [← not_or, ← hasWildcard_escaped, hwild]
    exact Bool.false_ne_true
  · intro hlast
    refine ⟨?_, fun name hname => ?_⟩
    · rw [← Bool.not_eq_true, hasWildcard_escaped, not_or]
      exact hlast
    · rw [maskMatches, cmpName, uptoNul_eq (zero_not_mem_escaped hs), uptoNul_eq hname]
      exact cmpNameBody_names hs hlast hname

theorem escapeMask_exact_bracket : Exact asciiCase [97, star, 98] :=
  (escapeMask_exact_iff asciiCase (by decide)).mpr (by decide)

/-- The mask made of `a*` matches `ab`. -/
theorem escapeMask_star_at_end : maskMatches asciiCase (escapeMask [97, star]) [97, 98] = true ∧
    ¬ Names asciiCase.upper false [97, star] [97, 98] := by
  constructor
  · rw [escapeMask_eq, maskMatches, cmpName]
    refine (cmpNameBody_matches (forall_mem_of_all (by decide)) (by decide) (by decide)).mpr ?_
    exact .literal (by decide) (by decide) rfl (.any [98] .nil)
  · rintro (h | ⟨-, stem, hs, -⟩)
    · exact absurd h (by decide)
    · have hlast := congrArg List.getLast? hs
      simp at hlast
      exact absurd hlast (by decide)

/-! ## An extension behind a star -/

/-- A `*` before the mask, without the shortcuts for some masks. -/
def starRule (a : CaseApi) (searchMode : Bool) (mask str : UnicodeString) : Bool :=
  str.tails.any fun rest => cmpNameBody a (· == ·) searchMode mask rest

theorem behindLastDot_eq_none (h : dot ∉ str) : behindLastDot str = none := by
  induction str with
  | nil => rfl
  | cons ch str ih =>
    rw [behindLastDot, ih fun hmem => h (mem_cons_of_mem _ hmem)]
    exact if_neg fun he : ch = dot => h (he ▸ mem_cons_self)

theorem behindLastDot_append (front : UnicodeString) (h : dot ∉ str) :
    behindLastDot (front ++ dot :: str) = some str := by
  induction front with
  | nil =>
    rw [nil_append, behindLastDot, behindLastDot_eq_none h]
    rfl
  | cons ch front ih => rw [cons_append, behindLastDot, ih]

theorem exists_behindLastDot {rest : UnicodeString} (h : behindLastDot str = some rest) :
    ∃ front, str = front ++ dot :: rest := by
  induction str with
  | nil => cases h
  | cons ch str ih =>
    rw [behindLastDot] at h
    split at h
    next hsome =>
      obtain ⟨front, hfront⟩ := ih (hsome.trans h)
      exact ⟨ch :: front, by rw [hfront, cons_append]⟩
    next hnone =>
      split at h
      next hdot =>
        cases h
        exact ⟨[], by rw [hdot, nil_append]⟩
      · cases h

/-- The name ends with a dot and the extension. -/
def HasExtension (upper : WChar → WChar) (ext name : UnicodeString) : Prop :=
  ∃ front rest, name = front ++ dot :: rest ∧ rest.map upper = ext.map upper

section
variable {ext : UnicodeString} (hext : ext ≠ [])
  (hplain : ∀ ch ∈ ext, ch ∉ [star, question, openBracket, dot])
include hext hplain

theorem starRule_extension (hzero : 0 ∉ ext) (hstr : 0 ∉ str) :
    starRule a searchMode (dot :: ext) str = true ↔ HasExtension a.upper ext str := by
  have hdot : a.upper dot = dot := a.upper_self (by decide)
  have hescaped : escaped (dot :: ext) = dot :: ext := by
    refine escaped_of_plain (forall_mem_cons.mpr ⟨by decide, fun ch hch => ?_⟩)
    have h := hplain ch hch
    simp_all [maskSymbols]
  have hend : ∀ special ∈ [star, question, openBracket, dot],
      (dot :: ext).getLast? ≠ some special := by
    intro special hspecial hlast
    rw [getLast?_cons_of_ne_nil hext] at hlast
    exact hplain special (mem_of_getLast? hlast) hspecial
  have hbody : ∀ rest, rest <:+ str → (cmpNameBody a (· == ·) searchMode (dot :: ext) rest = true ↔
      rest.map a.upper = dot :: ext.map a.upper) := by
    intro rest hsuffix
    have hnames := @cmpNameBody_names a searchMode (dot :: ext) rest
      (not_mem_cons_of_ne_of_not_mem (by decide) hzero)
      ⟨hend star (by decide), hend question (by decide)⟩ fun h => hstr (hsuffix.subset h)
    rw [hescaped] at hnames
    rw [hnames, Names, map_cons, hdot]
    refine or_iff_left ?_
    rintro ⟨-, stem, hs, -⟩
    exact hend dot (by decide) (by rw [hs, getLast?_concat])
  rw [starRule, any_eq_true]
  constructor
  · rintro ⟨rest, hrest, h⟩
    rw [mem_tails] at hrest
    obtain ⟨ch, tail, rfl, hch, htail⟩ := map_eq_cons_iff.mp ((hbody rest hrest).mp h)
    obtain rfl := (a.upper_eq_iff (by decide)).mp hch
    obtain ⟨front, rfl⟩ := hrest
    exact ⟨front, tail, rfl, htail⟩
  · rintro ⟨front, rest, rfl, hsame⟩
    refine ⟨dot :: rest, (mem_tails _ _).mpr (suffix_append _ _), ?_⟩
    rw [hbody _ (suffix_append _ _), map_cons, hdot, hsame]

theorem starShortcut_extension (str : UnicodeString) :
    starShortcut a (dot :: ext) str = (behindLastDot str).map (a.sameText ext) := by
  have hmem : ∀ special ∈ [star, question, openBracket, dot], special ∉ ext :=
    fun special hspecial h => hplain special h hspecial
  have hstar : ext ≠ [star] := fun he => hmem star (by decide) (by simp [he])
  have hdot : ext.contains dot = false := by simpa using hmem dot (by decide)
  have hany : ¬ ((dot :: ext).any fun ch => ch == star || ch == question || ch == openBracket) := by
    simp only [any_cons, Bool.or_eq_true, any_eq_true, beq_iff_eq]
    rintro (h | ⟨ch, hch, (rfl | rfl) | rfl⟩)
    · revert h; decide
    · exact hmem _ (by decide) hch
    · exact hmem _ (by decide) hch
    · exact hmem _ (by decide) hch
  obtain ⟨ch, ext, rfl⟩ := exists_cons_of_ne_nil hext
  rw [starShortcut.eq_def]
  refine (if_neg (by simp)).trans ((if_neg hstar).trans ((if_neg hany).trans ?_))
  cases behindLastDot str with
  | none => exact if_neg (by rw [hdot]; exact Bool.false_ne_true)
  | some rest => exact if_neg (by rw [hdot]; exact Bool.false_ne_true)

end

/-- A mask `*.ext` matches the names that end with a dot and the extension, by the
shortcut as by the rule for a `*`. -/
theorem cmpName_extension (a : CaseApi)
    (hsame : ∀ x y, a.sameText x y = (x.map a.upper == y.map a.upper))
    (ext str : UnicodeString) (searchMode : Bool) (hext : uptoNul ext ≠ [])
    (hplain : ∀ ch ∈ uptoNul ext, ch ∉ [star, question, openBracket, dot]) :
    cmpName a (star :: dot :: ext) str searchMode =
        starRule a searchMode (dot :: uptoNul ext) (uptoNul str) ∧
      (cmpName a (star :: dot :: ext) str searchMode = true ↔
        HasExtension a.upper (uptoNul ext) (uptoNul str)) := by
  have hrule : starRule a searchMode (dot :: uptoNul ext) (uptoNul str) = true ↔ _ :=
    starRule_extension hext hplain (zero_not_mem_uptoNul ext) (zero_not_mem_uptoNul str)
  have hstar : a.upper star = star := a.upper_self (by decide)
  have hpattern : uptoNul (star :: dot :: ext) = star :: dot :: uptoNul ext := rfl
  rw [cmpName, hpattern, cmpNameBody_star_eq hstar, starShortcut_extension hext hplain, ← starRule]
  suffices h : ((behindLastDot (uptoNul str)).map (a.sameText (uptoNul ext))).getD
      (starRule a searchMode (dot :: uptoNul ext) (uptoNul str)) =
        starRule a searchMode (dot :: uptoNul ext) (uptoNul str) by
    rw [h]
    exact ⟨rfl, hrule⟩
  cases hbehind : behindLastDot (uptoNul str) with
  | none => rfl
  | some rest =>
    rw [Option.map_some, Option.getD_some, hsame, Bool.eq_iff_iff, hrule, beq_iff_eq]
    constructor
    · intro heq
      obtain ⟨front, hfront⟩ := exists_behindLastDot hbehind
      exact ⟨front, rest, hfront, heq.symm⟩
    · rintro ⟨front, tail, hname, heq⟩
      -- the extension has no dot, so the dot before it is the last one
      have hdot : dot ∉ tail := by
        intro h
        have hmem : a.upper dot ∈ (uptoNul ext).map a.upper := heq ▸ List.mem_map_of_mem h
        obtain ⟨ch, hch, hupper⟩ := List.mem_map.mp hmem
        rw [a.upper_self (show dot ∈ specials by decide), a.upper_eq_iff (by decide)] at hupper
        exact hplain ch hch (by simp [hupper])
      rw [hname, behindLastDot_append front hdot] at hbehind
      cases hbehind
      exact heq.symm

theorem cmpName_extension_txt : cmpName asciiCase [star, dot, 116] [97, dot, 98, dot, 84] false =
    starRule asciiCase false [dot, 116] [97, dot, 98, dot, 84] ∧
      (cmpName asciiCase [star, dot, 116] [97, dot, 98, dot, 84] false = true ↔
        HasExtension asciiUpper [116] [97, dot, 98, dot, 84]) :=
  cmpName_extension asciiCase (fun _ _ => rfl) [116] [97, dot, 98, dot, 84] false (by decide)
    (forall_mem_of_all (by decide))

end NetBox.Masks
