import NetBox.Base.Text
import NetBox.Lib.CrtArguments

/-! # A parameter on the command line of PuTTY

`EscapePuttyCommandParam` of Common.cpp puts a backslash in front of every quote
and doubles the backslashes before it. Only when there is a space, the parameter
is put in quotes. So it goes wrong with an empty parameter, with a tab, and with
backslashes at the end, which then stand before the closing quote.
-/
namespace NetBox.Command
open Base.Text Lib.CrtArguments List

/-- A run of backslashes that ends at a quote. -/
def runsToQuote (rest : UnicodeString) : Bool := (rest.dropWhile (· == bslash)).head? == some quote

/-- The loop of `EscapePuttyCommandParam`. The source doubles the whole run at its
first backslash, where here each backslash of it sees the quote. -/
def escapeQuotes : UnicodeString → UnicodeString
  | [] => []
  | ch :: rest =>
    if ch = quote then bslash :: quote :: escapeQuotes rest
    else if ch = bslash && runsToQuote rest then bslash :: bslash :: escapeQuotes rest
    else ch :: escapeQuotes rest

def escapePuttyCommandParam (param : UnicodeString) : UnicodeString :=
  if param.contains 32 then [quote] ++ escapeQuotes param ++ [quote] else escapeQuotes param

example : escapePuttyCommandParam (wstr "a \\\"b\\c") = wstr "\"a \\\\\\\"b\\c\"" := by decide

theorem escapeQuotes_quote (rest : UnicodeString) :
    escapeQuotes (quote :: rest) = bslash :: quote :: escapeQuotes rest := by
  rw [escapeQuotes, if_pos rfl]

theorem escapeQuotes_bslash (rest : UnicodeString) :
    escapeQuotes (bslash :: rest) =
      if runsToQuote rest then bslash :: bslash :: escapeQuotes rest
      else bslash :: escapeQuotes rest := by
  rw [escapeQuotes, if_neg (by decide)]
  simp

theorem escapeQuotes_char {ch : WChar} (hslash : ch ≠ bslash) (hquote : ch ≠ quote)
    (rest : UnicodeString) : escapeQuotes (ch :: rest) = ch :: escapeQuotes rest := by
  rw [escapeQuotes, if_neg hquote, if_neg (by simp [hslash])]

theorem runsToQuote_quote (rest : UnicodeString) : runsToQuote (quote :: rest) = true := rfl

theorem runsToQuote_bslash (rest : UnicodeString) :
    runsToQuote (bslash :: rest) = runsToQuote rest := rfl

theorem runsToQuote_char {ch : WChar} (hslash : ch ≠ bslash) (hquote : ch ≠ quote)
    (rest : UnicodeString) : runsToQuote (ch :: rest) = false := by
  simp [runsToQuote, hslash, hquote]

/-! ## Reading an escaped text -/

/-- The backslashes that are read of an escaped text, when `j` of the text have
been: twice as many, if a quote is to come. -/
def pending (rest : UnicodeString) (j : Nat) : Nat := if runsToQuote rest then 2 * j else j

theorem pending_zero (rest : UnicodeString) : pending rest 0 = 0 := by
  unfold pending
  split <;> rfl

/-- Whether a text ends with a backslash is decided behind its last other
character. -/
theorem last_behind {ch : WChar} (h : ch ≠ bslash) (j : Nat) (rest : UnicodeString) :
    (List.replicate 0 bslash ++ rest).getLast? ≠ some bslash ↔
      (List.replicate j bslash ++ ch :: rest).getLast? ≠ some bslash := by
  cases hrest : rest.getLast? with
  | none => simp [getLast?_eq_none_iff.mp hrest, h]
  | some c => simp [getLast?_append, getLast?_cons, hrest]

/-- An escaped text is read as the text, up to the backslashes at its end, when
it is quoted or has no blank. -/
theorem run_escapeQuotes (param : UnicodeString) : ∀ (done : List UnicodeString)
    (cur : Option UnicodeString) (j : Nat) (quoted : Bool),
    quoted = true ∨ (∀ ch ∈ param, isBlank ch = false) →
    ∃ cur' k, Scan.run ⟨done, cur, pending param j, quoted⟩ (escapeQuotes param) =
        ⟨done, cur', k, quoted⟩ ∧
      cur'.getD [] ++ List.replicate k bslash =
        cur.getD [] ++ List.replicate j bslash ++ param ∧
      (k = 0 ↔ (List.replicate j bslash ++ param).getLast? ≠ some bslash) := by
  induction param with
  | nil =>
    intro done cur j quoted _
    refine ⟨cur, j, rfl, by simp, ?_⟩
    cases j with
    | zero => simp
    | succ j => simp [replicate_succ']
  | cons ch rest ih =>
    intro done cur j quoted hblank
    have hrest : quoted = true ∨ ∀ ch ∈ rest, isBlank ch = false :=
      hblank.imp_right fun h c hc => h c (mem_cons_of_mem _ hc)
    by_cases hslash : ch = bslash
    · subst hslash
      -- one more of the run, and one or two of the escaped one
      have hstep : Scan.run ⟨done, cur, pending (bslash :: rest) j, quoted⟩
          (escapeQuotes (bslash :: rest)) =
          Scan.run ⟨done, cur, pending rest (j + 1), quoted⟩ (escapeQuotes rest) := by
        rw [escapeQuotes_bslash, pending, runsToQuote_bslash, pending]
        split
        · rw [Scan.run_cons, Scan.step_bslash, Scan.run_cons, Scan.step_bslash]
          rfl
        · rw [Scan.run_cons, Scan.step_bslash]
      obtain ⟨cur', k, hrun, htext, hlast⟩ := ih done cur (j + 1) quoted hrest
      refine ⟨cur', k, hstep.trans hrun, ?_, ?_⟩
      · rw [htext, replicate_succ']
        simp
      · rw [hlast, replicate_succ']
        simp
    · by_cases hquote : ch = quote
      · subst hquote
        have hstep : Scan.run ⟨done, cur, pending (quote :: rest) j, quoted⟩
            (escapeQuotes (quote :: rest)) =
            Scan.run ⟨done, some (cur.getD [] ++ List.replicate j bslash ++ [quote]), 0, quoted⟩
              (escapeQuotes rest) := by
          rw [escapeQuotes_quote, pending, runsToQuote_quote, if_pos rfl, Scan.run_cons,
            Scan.step_bslash, Scan.run_cons, Scan.step_literal rfl]
          rfl
        obtain ⟨cur', k, hrun, htext, hlast⟩ :=
          ih done (some (cur.getD [] ++ List.replicate j bslash ++ [quote])) 0 quoted hrest
        rw [pending_zero] at hrun
        refine ⟨cur', k, hstep.trans hrun, by simpa using htext, ?_⟩
        rw [hlast]
        exact last_behind hslash j rest
      · have hstep : Scan.run ⟨done, cur, pending (ch :: rest) j, quoted⟩
            (escapeQuotes (ch :: rest)) =
            Scan.run ⟨done, some (cur.getD [] ++ List.replicate j bslash ++ [ch]), 0, quoted⟩
              (escapeQuotes rest) := by
          rw [escapeQuotes_char hslash hquote, pending, runsToQuote_char hslash hquote,
            if_neg Bool.false_ne_true, Scan.run_cons, Scan.step_char hslash hquote
              (hblank.symm.imp_left fun h => h ch mem_cons_self)]
          rfl
        obtain ⟨cur', k, hrun, htext, hlast⟩ :=
          ih done (some (cur.getD [] ++ List.replicate j bslash ++ [ch])) 0 quoted hrest
        rw [pending_zero] at hrun
        refine ⟨cur', k, hstep.trans hrun, by simpa using htext, ?_⟩
        rw [hlast]
        exact last_behind hslash j rest

/-- In quotes the text comes back unless it ends with a backslash, since these are
read together with the closing quote. -/
theorem arguments_quoted_iff (param : UnicodeString) :
    arguments ([quote] ++ escapeQuotes param ++ [quote]) = [param] ↔
      param.getLast? ≠ some bslash := by
  obtain ⟨cur, k, hrun, htext, hlast⟩ := run_escapeQuotes param [] (some []) 0 true (.inl rfl)
  rw [pending_zero] at hrun
  have hopen : Scan.step start quote = ⟨[], some [], 0, true⟩ := rfl
  rw [arguments, append_assoc, singleton_append, Scan.run_cons, hopen, Scan.run_append,
    hrun, Scan.run_cons]
  simp only [Option.getD_some, replicate_zero, nil_append] at htext hlast
  rw [← hlast]
  obtain ⟨j, rfl | rfl⟩ : ∃ j, k = 2 * j ∨ k = 2 * j + 1 := ⟨k / 2, by omega⟩
  · rw [Scan.step_toggle rfl, ← htext]
    have hsame : j = 2 * j ↔ 2 * j = 0 := by omega
    simpa [Scan.run, Scan.finish, Scan.text] using hsame
  · -- the quote is a literal one, where the parameter has a backslash
    have hquote : quote ∉ List.replicate (2 * j + 1) bslash := by
      rw [mem_replicate]
      exact fun h => absurd h.2 (by decide)
    rw [Scan.step_literal rfl, ← htext]
    refine iff_of_false (fun h => hquote ?_) (Nat.succ_ne_zero _)
    have hsame : List.replicate j bslash ++ [quote] = List.replicate (2 * j + 1) bslash := by
      simpa [Scan.run, Scan.finish, Scan.text] using h
    rw [← hsame]
    simp

def NoTab (s : Scan) : Prop := (∀ arg ∈ s.done, 9 ∉ arg) ∧ 9 ∉ s.cur.getD []

theorem NoTab.text {s : Scan} (h : NoTab s) (n : Nat) : 9 ∉ s.text n := by
  rw [Scan.text, mem_append, mem_replicate]
  exact not_or.mpr ⟨h.2, fun hmem => absurd hmem.2 (by decide)⟩

theorem NoTab.finish {s : Scan} (h : NoTab s) : ∀ arg ∈ s.finish, 9 ∉ arg := by
  rw [Scan.finish]
  split
  · exact h.1
  · intro arg harg
    rcases mem_append.mp harg with harg | harg
    · exact h.1 arg harg
    · rw [mem_singleton.mp harg]
      exact h.text _

/-- Outside of quotes an escaped text opens none, and no tab gets into an argument. -/
theorem NoTab.run (param : UnicodeString) : ∀ (s : Scan) (j : Nat), s.slashes = pending param j →
    s.quoted = false → NoTab s → NoTab (s.run (escapeQuotes param)) := by
  induction param with
  | nil => exact fun s j _ _ h => h
  | cons ch rest ih =>
    intro s j hslashes hquoted h
    by_cases hslash : ch = bslash
    · subst hslash
      rw [pending, runsToQuote_bslash] at hslashes
      rw [escapeQuotes_bslash]
      split
      next hrun =>
        rw [if_pos hrun] at hslashes
        rw [Scan.run_cons, Scan.step_bslash, Scan.run_cons, Scan.step_bslash]
        refine ih _ (j + 1) ?_ hquoted h
        rw [pending, if_pos hrun]
        dsimp only
        omega
      next hrun =>
        rw [if_neg hrun] at hslashes
        rw [Scan.run_cons, Scan.step_bslash]
        refine ih _ (j + 1) ?_ hquoted h
        rw [pending, if_neg hrun, hslashes]
    · by_cases hquote : ch = quote
      · subst hquote
        rw [pending, runsToQuote_quote, if_pos rfl] at hslashes
        rw [escapeQuotes_quote, Scan.run_cons, Scan.step_bslash, Scan.run_cons,
          Scan.step_literal (j := j) (by dsimp only; omega)]
        refine ih _ 0 (pending_zero rest).symm hquoted ⟨h.1, ?_⟩
        rw [Option.getD_some, mem_append]
        exact not_or.mpr ⟨h.text j, by decide⟩
      · rw [escapeQuotes_char hslash hquote, Scan.run_cons]
        by_cases hblank : isBlank ch = true
        · rw [Scan.step_blank hblank hquoted]
          exact ih _ 0 (pending_zero rest).symm rfl ⟨h.finish, by simp⟩
        · have hchar : isBlank ch = false := eq_false_of_ne_true hblank
          rw [Scan.step_char hslash hquote (.inl hchar)]
          refine ih _ 0 (pending_zero rest).symm hquoted ⟨h.1, ?_⟩
          rw [Option.getD_some, mem_append, mem_singleton]
          refine not_or.mpr ⟨h.text _, ?_⟩
          rintro rfl
          exact absurd hchar (by decide)

/-- Without quotes the text comes back when there is one and it has no tab. -/
theorem arguments_unquoted_iff {param : UnicodeString} (hspace : 32 ∉ param) :
    arguments (escapeQuotes param) = [param] ↔ param ≠ [] ∧ 9 ∉ param := by
  by_cases htab : 9 ∈ param
  · refine iff_of_false (fun h => ?_) fun h => h.2 htab
    have hclean : NoTab (Scan.run start (escapeQuotes param)) :=
      NoTab.run param start 0 (pending_zero param).symm rfl ⟨by simp [start], by simp [start]⟩
    exact hclean.finish param (by rw [← arguments, h]; exact mem_singleton.mpr rfl) htab
  · have hblank : ∀ ch ∈ param, isBlank ch = false := by
      intro ch hch
      simp only [isBlank, Bool.or_eq_false_iff, beq_eq_false_iff_ne]
      exact ⟨fun he => hspace (he ▸ hch), fun he => htab (he ▸ hch)⟩
    obtain ⟨cur, k, hrun, htext, -⟩ := run_escapeQuotes param [] none 0 false (.inr hblank)
    rw [pending_zero] at hrun
    simp only [Option.getD_none, replicate_zero, nil_append] at htext
    rw [arguments, show start = ⟨[], none, 0, false⟩ from rfl, hrun, Scan.finish]
    by_cases hempty : cur = none ∧ k = 0
    · rw [if_pos hempty]
      have hnil : param = [] := by rw [← htext, hempty.1, hempty.2]; rfl
      simp [hnil]
    · rw [if_neg hempty, Scan.text, htext]
      have hne : param ≠ [] := by
        rintro rfl
        have hstart : none = cur ∧ 0 = k := by simpa [escapeQuotes, Scan.run] using hrun
        exact hempty ⟨hstart.1.symm, hstart.2.symm⟩
      simp [hne, htab]

/-- A parameter that survives: with a space in it, it does not end with a
backslash, and without one it is not empty and has no tab. -/
def Survives (param : UnicodeString) : Prop :=
  if 32 ∈ param then param.getLast? ≠ some bslash else param ≠ [] ∧ 9 ∉ param

/-- The escaped parameter is one argument more, equal to the parameter, behind
every command line in which no quote is open, exactly when it survives. -/
theorem escapePuttyCommandParam_iff (param : UnicodeString) :
    (∀ line, Closed line → arguments (line ++ 32 :: escapePuttyCommandParam param) =
      arguments line ++ [param]) ↔ Survives param := by
  have halone : (∀ line, Closed line → arguments (line ++ 32 :: escapePuttyCommandParam param) =
      arguments line ++ [param]) ↔ arguments (escapePuttyCommandParam param) = [param] := by
    constructor
    · intro h
      have hclosed : Closed [] := rfl
      have hline := h [] hclosed
      rwa [arguments_append hclosed, List.append_cancel_left_eq] at hline
    · intro h line hclosed
      rw [arguments_append hclosed, h]
  rw [halone, Survives, escapePuttyCommandParam, List.contains_eq_mem]
  by_cases hspace : 32 ∈ param
  · rw [if_pos hspace, if_pos (decide_eq_true hspace)]
    exact arguments_quoted_iff param
  · rw [if_neg hspace, if_neg (by simpa using hspace)]
    exact arguments_unquoted_iff hspace

/-- The backslash at the end of `a b\` makes the closing quote a literal one. -/
theorem escapePuttyCommandParam_trailing :
    arguments (wstr "putty" ++ 32 :: escapePuttyCommandParam (wstr "a b\\")) =
      [wstr "putty", wstr "a b\""] ∧
    arguments (wstr "putty" ++ 32 :: escapePuttyCommandParam []) = [wstr "putty"] := by
  decide

end NetBox.Command
