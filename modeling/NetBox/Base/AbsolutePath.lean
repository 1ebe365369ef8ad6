import NetBox.Base.PathResolution

/-! # When a path is resolved as POSIX does it

`AbsolutePath` differs from the resolution of components in three ways. A `..`
that meets a `.` or an empty component takes that for a directory. A `..` at the
root drops what follows it. And empty components stay. The first one does no harm
when none of the names before it stays to the end anyway.
-/
namespace NetBox.Base.Text
open Lib.Segments List

/-- How many components of the way to here the rest of a path takes back, when all
of its components are counted. -/
def takenBack : List Component → Nat
  | [] => 0
  | c :: rest => if c = parentDirectory then takenBack rest + 1 else takenBack rest - 1

/-- A path without the three differences, when `way` leads to where it starts,
the last component first. -/
def Resolves (way : List Component) : List Component → Prop
  | [] => [] ∉ way ∨ way.filter (· ≠ thisDirectory) = [[]]
  | c :: rest =>
    if c = parentDirectory then
      match way with
      | [] => resolve [] rest = []
      | top :: way =>
        (IsName top ∨ ∀ name ∈ way.drop (takenBack rest), ¬ IsName name) ∧ Resolves way rest
    else Resolves (c :: way) rest

theorem resolves_root (rest : List Component) :
    Resolves [] (parentDirectory :: rest) ↔ resolve [] rest = [] := by
  rw [Resolves, if_pos rfl]

theorem resolves_up (top : Component) (way rest : List Component) :
    Resolves (top :: way) (parentDirectory :: rest) ↔
      (IsName top ∨ ∀ name ∈ way.drop (takenBack rest), ¬ IsName name) ∧ Resolves way rest := by
  rw [Resolves, if_pos rfl]

variable {c : Component}

theorem resolves_down (h : c ≠ parentDirectory) (way rest : List Component) :
    Resolves way (c :: rest) ↔ Resolves (c :: way) rest := by
  cases way <;> rw [Resolves, if_neg h]

/-- The names of a way. -/
def names (way : List Component) : List Component := way.filter IsName

theorem names_cons_name {top : Component} (h : IsName top) (way : List Component) :
    names (top :: way) = top :: names way := filter_cons_of_pos (by simpa using h)

theorem names_cons_other {top : Component} (h : ¬ IsName top) (way : List Component) :
    names (top :: way) = names way := filter_cons_of_neg (by simpa using h)

theorem resolve_up (way rest : List Component) :
    resolve way (parentDirectory :: rest) = resolve way.tail rest := by
  rw [resolve, if_neg (by decide), if_pos rfl]

theorem resolve_name (h : IsName c) (way rest : List Component) :
    resolve way (c :: rest) = resolve (c :: way) rest := by
  rw [resolve, if_neg (not_or.mpr ⟨h.1, h.2.1⟩), if_neg h.2.2]

theorem resolve_other (h : ¬ IsName c) (hc : c ≠ parentDirectory) (way rest : List Component) :
    resolve way (c :: rest) = resolve way rest := by
  have hskip : c = [] ∨ c = thisDirectory := by
    by_contra hne
    exact h ⟨(not_or.mp hne).1, (not_or.mp hne).2, hc⟩
  rw [resolve, if_pos hskip]

/-! ## A way that is taken back -/

variable {way rest n m : List Component}

theorem tail_sublist_names {top : Component} (h : n.Sublist (names (top :: way))) :
    n.tail.Sublist (names way) := by
  by_cases htop : IsName top
  · rw [names_cons_name htop] at h
    exact h.tail
  · rw [names_cons_other htop] at h
    exact (tail_sublist n).trans h

theorem cons_sublist_names (hc : c ≠ parentDirectory) (rest : List Component)
    (h : n.Sublist (names way)) : ∃ n', n'.Sublist (names (c :: way)) ∧
      resolve n (c :: rest) = resolve n' rest ∧
      n'.length + (names way).length = n.length + (names (c :: way)).length := by
  by_cases hname : IsName c
  · refine ⟨c :: n, ?_, resolve_name hname n rest, ?_⟩
    · rw [names_cons_name hname]
      exact h.cons_cons c
    · rw [names_cons_name hname, length_cons, length_cons]
      omega
  · refine ⟨n, ?_, resolve_other hname hc n rest, ?_⟩
    · rwa [names_cons_other hname]
    · rw [names_cons_other hname]

theorem takenBack_up (rest : List Component) :
    takenBack (parentDirectory :: rest) = takenBack rest + 1 := by rw [takenBack, if_pos rfl]

theorem takenBack_down (h : c ≠ parentDirectory) (rest : List Component) :
    takenBack (c :: rest) = takenBack rest - 1 := by rw [takenBack, if_neg h]

/-- When the names of the way do not stay, it does not matter which of them there
were. -/
theorem resolve_congr (hn : n.Sublist (names way)) (hm : m.Sublist (names way))
    (h : ∀ name ∈ way.drop (takenBack rest), ¬ IsName name) : resolve n rest = resolve m rest := by
  induction rest generalizing way n m with
  | nil =>
    have hnames : names way = [] := filter_eq_nil_iff.mpr (by simpa [takenBack] using h)
    rw [hnames, sublist_nil] at hn hm
    rw [hn, hm]
  | cons c rest ih =>
    by_cases hc : c = parentDirectory
    · subst hc
      rw [resolve_up, resolve_up]
      cases way with
      | nil =>
        rw [sublist_nil.mp hn, sublist_nil.mp hm]
      | cons top way =>
        rw [takenBack_up, drop_succ_cons] at h
        exact ih (tail_sublist_names hn) (tail_sublist_names hm) h
    · rw [takenBack_down hc] at h
      cases hback : takenBack rest with
      | zero =>
        -- none of the names is taken back, so there are none
        rw [hback] at h
        have hnames : names way = [] := filter_eq_nil_iff.mpr (by simpa using h)
        rw [hnames, sublist_nil] at hn hm
        rw [hn, hm]
      | succ k =>
        obtain ⟨n', hn', hresolve, -⟩ := cons_sublist_names hc rest hn
        obtain ⟨m', hm', hresolve', -⟩ := cons_sublist_names hc rest hm
        rw [hresolve, hresolve']
        refine ih hn' hm' ?_
        rw [hback] at h ⊢
        exact h

/-- When a name of the way stays, a name that is missing is never made up for. -/
theorem resolve_shorter (hn : n.Sublist (names way)) (hlt : n.length < (names way).length)
    (h : ∃ name ∈ way.drop (takenBack rest), IsName name) :
    (resolve n rest).length < (names (climb way rest)).length := by
  induction rest generalizing way n with
  | nil =>
    rw [resolve, climb, names, filter_reverse, length_reverse, length_reverse]
    exact hlt
  | cons c rest ih =>
    by_cases hc : c = parentDirectory
    · subst hc
      rw [resolve_up]
      cases way with
      | nil => simp at h
      | cons top way =>
        rw [climb_up]
        rw [takenBack_up, drop_succ_cons] at h
        refine ih (tail_sublist_names hn) ?_ h
        obtain ⟨name, hmem, hname⟩ := h
        have hpos : 0 < (names way).length := length_pos_of_mem
          (mem_filter.mpr ⟨mem_of_mem_drop hmem, by simpa using hname⟩)
        by_cases htop : IsName top
        · rw [names_cons_name htop, length_cons] at hlt
          rw [length_tail]
          omega
        · rw [names_cons_other htop] at hlt
          rw [length_tail]
          omega
    · rw [climb_down hc]
      obtain ⟨n', hn', hresolve, hlen⟩ := cons_sublist_names hc rest hn
      rw [hresolve]
      refine ih hn' (by omega) ?_
      obtain ⟨name, hmem, hname⟩ := h
      refine ⟨name, ?_, hname⟩
      rw [takenBack_down hc] at hmem
      cases hback : takenBack rest with
      | zero => exact mem_cons_of_mem _ (mem_of_mem_drop hmem)
      | succ k => rwa [hback] at hmem

/-! ## Equal texts -/

theorem started_inj {l r : List Component} (hl : SlashFree l) (hr : SlashFree r) :
    started slash l = started slash r ↔ l = r := by
  refine ⟨fun h => ?_, fun h => h ▸ rfl⟩
  have hended : ended slash l = ended slash r := by
    have := congrArg (· ++ [slash]) h
    simpa only [started_concat_sep, List.cons.injEq, true_and] using this
  have hsplit := split_ended hl (not_mem_nil : slash ∉ ([] : Component))
  rw [hended, split_ended hr not_mem_nil] at hsplit
  exact (Prod.mk.inj hsplit).1.symm

/-- Only `//` looks like `/` when its slash at the end is cut off. -/
theorem absolute_eq_iff {l r : List Component} (hl : SlashFree l) (hr : Directory r) :
    absolute l = absolute r ↔ l = r ∨ (l = [[]] ∧ r = []) := by
  have hempty : ∀ cs : List Component, started slash cs = [slash] ↔ cs = [[]] := by
    intro cs
    cases cs with
    | nil => simp
    | cons c cs =>
      cases cs with
      | nil => simp
      | cons d cs => simp
  have hno : r ≠ [[]] := by
    rintro rfl
    exact (hr.names [] (mem_singleton.mpr rfl)).1 rfl
  by_cases hlnil : l = []
  · by_cases hrnil : r = []
    · simp [hlnil, hrnil]
    · have hne : [slash] ≠ started slash r := fun h => hno ((hempty r).mp h.symm)
      simp [absolute, hlnil, hrnil, hne, Ne.symm hrnil]
  · by_cases hrnil : r = []
    · simp [absolute, hlnil, hrnil, hempty]
    · simp [absolute, hlnil, hrnil, started_inj hl hr.free]

/-! ## The walk and the resolution -/

theorem directory_resolve (hway : Directory way) (hfree : SlashFree rest) :
    Directory (resolve way rest) := by
  induction rest generalizing way with
  | nil =>
    exact ⟨fun c hc => hway.names c (mem_reverse.mp hc),
      fun c hc => hway.free c (mem_reverse.mp hc)⟩
  | cons c rest ih =>
    obtain ⟨hc, hrest⟩ := forall_mem_cons.mp hfree
    by_cases hup : c = parentDirectory
    · subst hup
      rw [resolve_up]
      exact ih ⟨fun c hc => hway.names c (mem_of_mem_tail hc),
        fun c hc => hway.free c (mem_of_mem_tail hc)⟩ hrest
    · by_cases hname : IsName c
      · rw [resolve_name hname]
        exact ih ⟨forall_mem_cons.mpr ⟨hname, hway.names⟩,
          forall_mem_cons.mpr ⟨hc, hway.free⟩⟩ hrest
      · rw [resolve_other hname hup]
        exact ih hway hrest

theorem directory_names (hway : SlashFree way) : Directory (names way) :=
  ⟨fun c hc => by simpa using (mem_filter.mp hc).2,
    fun c hc => hway c (mem_of_mem_filter hc)⟩

/-- The same text comes of the walk, without its `.`, and of the resolution. -/
def SameText (way n rest : List Component) : Prop :=
  absolute ((climb way rest).filter (· ≠ thisDirectory)) = absolute (resolve n rest)

theorem sameText_iff {l : List Component} (hway : SlashFree way) (hfree : SlashFree rest)
    (hn : Directory n) (hl : (climb way rest).filter (· ≠ thisDirectory) = l) :
    SameText way n rest ↔ l = resolve n rest ∨ (l = [[]] ∧ resolve n rest = []) := by
  have hlfree : SlashFree l := by
    intro c hc
    rw [← hl] at hc
    rcases mem_climb (mem_of_mem_filter hc) with hc | ⟨hc, -⟩
    · exact hway c hc
    · exact hfree c hc
  rw [SameText, hl]
  exact absolute_eq_iff hlfree (directory_resolve hn hfree)

/-- A name that stays on the walk but is missing in the resolution shows. -/
theorem not_sameText (hway : SlashFree way) (hfree : SlashFree rest)
    (hn : n.Sublist (names way)) (hlt : n.length < (names way).length)
    (h : ∃ name ∈ way.drop (takenBack rest), IsName name) : ¬ SameText way n rest := by
  have hshorter := resolve_shorter hn hlt h
  have hdir : Directory n :=
    ⟨fun c hc => (directory_names hway).names c (hn.subset hc),
      fun c hc => (directory_names hway).free c (hn.subset hc)⟩
  have hsame : names ((climb way rest).filter (· ≠ thisDirectory)) = names (climb way rest) := by
    rw [names, filter_filter, names]
    refine filter_congr fun c _ => ?_
    by_cases hname : IsName c
    · simp [hname, hname.2.1]
    · simp [hname]
  have hall : names (resolve n rest) = resolve n rest :=
    filter_eq_self.mpr (by simpa using (directory_resolve hdir hfree).names)
  rw [sameText_iff hway hfree hdir rfl]
  rintro (heq | ⟨hone, hnil⟩)
  · rw [← hsame, heq, hall] at hshorter
    exact lt_irrefl _ hshorter
  · rw [← hsame, hone, hnil] at hshorter
    exact lt_irrefl _ hshorter

theorem sameText_end (hway : SlashFree way) (hup : parentDirectory ∉ way) :
    SameText way (names way) [] ↔ [] ∉ way ∨ way.filter (· ≠ thisDirectory) = [[]] := by
  have hclimb : (climb way []).filter (· ≠ thisDirectory) =
      (way.filter (· ≠ thisDirectory)).reverse := by
    rw [climb, filter_reverse]
  have hnames : way.filter (· ≠ thisDirectory) = names way ↔ [] ∉ way := by
    rw [names]
    constructor
    · intro h hmem
      have : [] ∈ way.filter (· ≠ thisDirectory) :=
        mem_filter.mpr ⟨hmem, by decide⟩
      rw [h] at this
      simp [IsName] at this
    · intro hno
      refine filter_congr fun c hc => ?_
      have hne : c ≠ [] := fun he => hno (he ▸ hc)
      have hne' : c ≠ parentDirectory := fun he => hup (he ▸ hc)
      simp [IsName, hne, hne']
  have hone : way.filter (· ≠ thisDirectory) = [[]] → names way = [] := by
    intro h
    refine filter_eq_nil_iff.mpr fun c hc => ?_
    by_cases hthis : c = thisDirectory
    · simp [IsName, hthis]
    · have hmem : c ∈ way.filter (· ≠ thisDirectory) := mem_filter.mpr ⟨hc, by simpa using hthis⟩
      rw [h] at hmem
      simp [IsName, mem_singleton.mp hmem]
  rw [sameText_iff hway (by simp [SlashFree]) (directory_names hway) hclimb, resolve,
    reverse_inj, hnames]
  refine or_congr_right ⟨fun h => ?_, fun h => ⟨by rw [h]; rfl, by rw [hone h]; rfl⟩⟩
  have := congrArg List.reverse h.1
  rwa [reverse_reverse] at this

/-- The walk leads to the same text as the resolution exactly when the path has
none of the differences. -/
theorem sameText_iff_resolves (hway : SlashFree way) (hup : parentDirectory ∉ way)
    (hfree : SlashFree rest) : SameText way (names way) rest ↔ Resolves way rest := by
  induction rest generalizing way with
  | nil => exact sameText_end hway hup
  | cons c rest ih =>
    obtain ⟨hc, hrest⟩ := forall_mem_cons.mp hfree
    by_cases hparent : c = parentDirectory
    · subst hparent
      cases way with
      | nil =>
        rw [sameText_iff hway hfree (directory_names hway) (l := []) (by rw [climb_root]; rfl),
          resolves_root, resolve_up]
        constructor
        · rintro (h | ⟨h, -⟩)
          · exact h.symm
          · cases h
        · exact fun h => .inl h.symm
      | cons top way =>
        obtain ⟨htop, hwayfree⟩ := forall_mem_cons.mp hway
        obtain ⟨-, hwayup⟩ := not_or.mp (mt mem_cons.mpr hup)
        have hround : SameText (top :: way) (names (top :: way)) (parentDirectory :: rest) ↔
            SameText way (names (top :: way)).tail rest := by
          rw [SameText, climb_up, resolve_up, SameText]
        rw [hround, resolves_up, ← ih hwayfree hwayup hrest]
        by_cases hname : IsName top
        · rw [names_cons_name hname, tail_cons]
          simp [hname]
        · rw [names_cons_other hname]
          by_cases hstay : ∀ name ∈ way.drop (takenBack rest), ¬ IsName name
          · have hsame := resolve_congr (tail_sublist (names way)) (List.Sublist.refl _) hstay
            rw [SameText, hsame, ← SameText]
            exact (and_iff_right (.inr hstay)).symm
          · refine iff_of_false ?_ fun h => ?_
            · push Not at hstay
              obtain ⟨name, hmem, hisname⟩ := hstay
              have hpos : 0 < (names way).length := length_pos_of_mem
                (mem_filter.mpr ⟨mem_of_mem_drop hmem, by simpa using hisname⟩)
              refine not_sameText hwayfree hrest (tail_sublist _) ?_ ⟨name, hmem, hisname⟩
              rw [length_tail]
              omega
            · exact h.1.elim hname hstay
    · have hround : SameText way (names way) (c :: rest) ↔
          SameText (c :: way) (names (c :: way)) rest := by
        rw [SameText, climb_down hparent, SameText]
        by_cases hname : IsName c
        · rw [resolve_name hname, names_cons_name hname]
        · rw [resolve_other hname hparent, names_cons_other hname]
      rw [hround, resolves_down hparent]
      exact ih (forall_mem_cons.mpr ⟨hc, hway⟩)
        (not_mem_cons_of_ne_of_not_mem (Ne.symm hparent) hup) hrest

/-- `AbsolutePath` ends, and resolves a path as POSIX does exactly when no `..`
of it takes a `.` or an empty component for a directory while names before that
stay, when nothing is left of what follows a `..` at the root, and when no empty
component stays. -/
theorem absolutePath_resolve_iff {base : List Component} (hbase : Directory base)
    {path : UnicodeString} (hpath : path ≠ []) (hrelative : path.head? ≠ some slash) :
    LoopsEnd (absolute base) path ∧
    (absolutePath (absolute base) path = absolute (resolve [] (base ++ cut slash path)) ↔
      Resolves [] (base ++ cut slash path)) := by
  obtain ⟨hends, habsolute⟩ := absolutePath_eq hbase hpath hrelative
  refine ⟨hends, ?_⟩
  rw [habsolute]
  exact sameText_iff_resolves (by simp [SlashFree]) List.not_mem_nil
    (List.forall_mem_append.mpr ⟨hbase.free, slashFree_cut path⟩)

theorem absolutePath_resolve_iff_sibling : Directory [wstr "home", wstr "user"] ∧
    wstr "../x/." ≠ [] ∧ (wstr "../x/.").head? ≠ some slash ∧
    (absolutePath (absolute [wstr "home", wstr "user"]) (wstr "../x/.") =
        absolute (resolve [] ([wstr "home", wstr "user"] ++ cut slash (wstr "../x/."))) ↔
      Resolves [] ([wstr "home", wstr "user"] ++ cut slash (wstr "../x/."))) := by
  have hbase : Directory [wstr "home", wstr "user"] :=
    ⟨by decide, by unfold SlashFree; decide⟩
  have hpath : wstr "../x/." ≠ [] := by decide
  have hrelative : (wstr "../x/.").head? ≠ some slash := by decide
  exact ⟨hbase, hpath, hrelative, (absolutePath_resolve_iff hbase hpath hrelative).2⟩

/-- The `..` of `./..` takes the `.` away and stays in the directory. -/
theorem absolutePath_this_parent :
    absolutePath (absolute [wstr "a"]) (wstr "./..") = wstr "/a" ∧
    absolute (resolve [] ([wstr "a"] ++ cut slash (wstr "./.."))) = wstr "/" := by
  decide

end NetBox.Base.Text
