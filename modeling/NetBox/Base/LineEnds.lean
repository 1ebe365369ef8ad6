import NetBox.Base.FileBuffer

/-! # Line ends across blocks

A text is converted in blocks. What one block becomes is said without the
buffer, and from it what the blocks of a text become together. A line end
cut in two is completed at the end of its first block; the code then deletes
every LF at the beginning of the next one, not only the one it has completed.
-/
namespace NetBox.Base.LineEnds
open Lib.Edit Base.FileBuffer List

/-- Every LF becomes CRLF, whether or not a CR precedes it. -/
def toCrlf : List UInt8 → List UInt8
  | 13 :: 10 :: rest => cr :: lf :: toCrlf rest
  | 10 :: rest => cr :: lf :: toCrlf rest
  | b :: rest => b :: toCrlf rest
  | [] => []

/-- Every CRLF becomes LF. -/
def toLf : List UInt8 → List UInt8
  | 13 :: 10 :: rest => lf :: toLf rest
  | b :: rest => b :: toLf rest
  | [] => []

inductive Direction
  | lfToCrlf
  | crlfToLf
deriving DecidableEq

namespace Direction

def source : Direction → Eol
  | lfToCrlf => eolToStr .lf
  | crlfToLf => eolToStr .crlf

def dest : Direction → Eol
  | lfToCrlf => eolToStr .crlf
  | crlfToLf => eolToStr .lf

def converted : Direction → List UInt8 → List UInt8
  | lfToCrlf => toCrlf
  | crlfToLf => toLf

/-- What the blocks of a text become together. -/
def convertAll (d : Direction) (blocks : List (List UInt8)) : List UInt8 :=
  convertBlocks d.source d.dest {} false blocks

end Direction

/-- Each CR of the text is immediately followed by LF. -/
def CrFollowed (text : List UInt8) : Prop :=
  ∀ i, text[i]? = some cr → text[i + 1]? = some lf

/-! ## One block -/

/-- What a block becomes from LF to CRLF: as the text, but a CR at its end is
completed. -/
def expand : List UInt8 → List UInt8
  | 13 :: 10 :: rest => cr :: lf :: expand rest
  | [13] => [cr, lf]
  | 10 :: rest => cr :: lf :: expand rest
  | b :: rest => b :: expand rest
  | [] => []

/-- What a block becomes from CRLF to another line end: a CR at its end is
dropped. -/
def replace (dest : List UInt8) : List UInt8 → List UInt8
  | 13 :: 10 :: rest => dest ++ replace dest rest
  | [13] => []
  | b :: rest => b :: replace dest rest
  | [] => []

/-! The passages of the loop from LF to CRLF, by what it stands on. -/

theorem oneCharStep_crlf (prevToken token : Bool) (before rest : List UInt8) :
    oneCharStep (eolToStr .lf) (eolToStr .crlf) prevToken
        ⟨before ++ 13 :: 10 :: rest, before.length, token⟩ =
      ⟨(before ++ [cr, lf]) ++ rest, (before ++ [cr, lf]).length, token⟩ := by
  simp [oneCharStep, eolToStr, cr, lf]

theorem oneCharStep_half (prevToken token : Bool) (before : List UInt8) :
    oneCharStep (eolToStr .lf) (eolToStr .crlf) prevToken ⟨before ++ [13], before.length, token⟩ =
      ⟨before ++ [cr, lf], (before ++ [cr, lf]).length, true⟩ := by
  simp [oneCharStep, eolToStr, cr, lf]

theorem oneCharStep_lf {prevToken : Bool} (token : Bool) {before : List UInt8} (rest : List UInt8)
    (h : prevToken = true → before ≠ []) :
    oneCharStep (eolToStr .lf) (eolToStr .crlf) prevToken
        ⟨before ++ 10 :: rest, before.length, token⟩ =
      ⟨(before ++ [cr, lf]) ++ rest, (before ++ [cr, lf]).length, token⟩ := by
  have hnot : before = [] → prevToken = false := fun hb => by
    by_contra hp
    exact h (by simpa using hp) hb
  simp +contextual [oneCharStep, eolToStr, cr, lf, hnot]

theorem oneCharStep_delete (token : Bool) (rest : List UInt8) :
    oneCharStep (eolToStr .lf) (eolToStr .crlf) true ⟨10 :: rest, 0, token⟩ =
      ⟨rest, 0, token⟩ := by
  simp [oneCharStep, eolToStr, cr, lf]

theorem oneCharStep_other (prevToken token : Bool) (before : List UInt8) {b : UInt8}
    {rest : List UInt8} (hpair : ∀ r, b = 13 → rest = 10 :: r → False)
    (hhalf : b = 13 → rest = [] → False) (hlf : b = 10 → False) :
    oneCharStep (eolToStr .lf) (eolToStr .crlf) prevToken
        ⟨before ++ b :: rest, before.length, token⟩ =
      ⟨(before ++ [b]) ++ rest, (before ++ [b]).length, token⟩ := by
  cases rest with
  | nil => simp_all [oneCharStep, eolToStr, cr, lf]
  | cons c r => simp_all [oneCharStep, eolToStr, cr, lf]

theorem oneCharLoop_end (source dest : Eol) (prevToken token : Bool) (data : List UInt8)
    (fuel : Nat) : oneCharLoop source dest prevToken fuel ⟨data, data.length, token⟩ =
      ⟨data, data.length, token⟩ := by
  cases fuel <;> simp [oneCharLoop]

/-- From a position on, the loop expands the rest of the block. -/
theorem oneCharLoop_expand (prevToken token : Bool) (before rest : List UInt8) (fuel : Nat)
    (hfuel : rest.length ≤ fuel)
    (hhead : prevToken = true → before = [] → rest.head? ≠ some lf) :
    oneCharLoop (eolToStr .lf) (eolToStr .crlf) prevToken fuel
        ⟨before ++ rest, before.length, token⟩ =
      ⟨before ++ expand rest, (before ++ expand rest).length,
        token || rest.getLast? == some cr⟩ := by
  induction rest using expand.induct generalizing before token fuel with
  | case1 rest ih =>
    obtain ⟨fuel, rfl⟩ : ∃ n, fuel = n + 1 := ⟨fuel - 1, by simp at hfuel; omega⟩
    rw [oneCharLoop, if_pos (by simp), oneCharStep_crlf,
      ih _ _ _ (by simp at hfuel; omega) (by simp)]
    cases rest <;> simp [expand, cr, lf]
  | case2 =>
    obtain ⟨fuel, rfl⟩ : ∃ n, fuel = n + 1 := ⟨fuel - 1, by simp at hfuel; omega⟩
    rw [oneCharLoop, if_pos (by simp), oneCharStep_half, oneCharLoop_end]
    simp [expand, cr]
  | case3 rest ih =>
    obtain ⟨fuel, rfl⟩ : ∃ n, fuel = n + 1 := ⟨fuel - 1, by simp at hfuel; omega⟩
    have hne : prevToken = true → before ≠ [] := fun hp hb => hhead hp hb rfl
    rw [oneCharLoop, if_pos (by simp), oneCharStep_lf _ _ hne,
      ih _ _ _ (by simp at hfuel; omega) (by simp)]
    cases rest <;> simp [expand, cr, lf]
  | case4 b rest h1 h2 h3 ih =>
    obtain ⟨fuel, rfl⟩ : ∃ n, fuel = n + 1 := ⟨fuel - 1, by simp at hfuel; omega⟩
    rw [oneCharLoop, if_pos (by simp), oneCharStep_other _ _ _ h1 h2 h3,
      ih _ _ _ (by simp at hfuel; omega) (by simp), expand.eq_4 _ _ h1 h2 h3]
    cases rest with
    | nil =>
      have hb : ¬ b = cr := fun hb => h2 hb rfl
      simp [hb]
    | cons c rest => simp
  | case5 =>
    rw [append_nil, oneCharLoop_end]
    simp [expand]

/-- In the block after one that ends with half a line end, the LFs at the
beginning are deleted first. -/
theorem oneCharLoop_delete (token : Bool) (rest : List UInt8) (fuel : Nat)
    (hfuel : rest.length ≤ fuel) :
    oneCharLoop (eolToStr .lf) (eolToStr .crlf) true fuel ⟨rest, 0, token⟩ =
      ⟨expand (rest.dropWhile (· == lf)), (expand (rest.dropWhile (· == lf))).length,
        token || (rest.dropWhile (· == lf)).getLast? == some cr⟩ := by
  induction rest generalizing fuel with
  | nil => simpa [expand] using oneCharLoop_end (eolToStr .lf) (eolToStr .crlf) true token [] fuel
  | cons b rest ih =>
    by_cases hb : b = lf
    · subst hb
      obtain ⟨fuel, rfl⟩ : ∃ n, fuel = n + 1 := ⟨fuel - 1, by simp at hfuel; omega⟩
      rw [oneCharLoop, if_pos (by simp), lf, oneCharStep_delete, ih _ (by simp at hfuel; omega)]
      simp [lf]
    · rw [dropWhile_cons_of_neg (by simpa using hb)]
      exact oneCharLoop_expand true token [] (b :: rest) fuel hfuel (by simpa using hb)

theorem strip_none (block : List UInt8) : ConvertParams.strip {} block = block :=
  rfl

/-- What a block becomes from LF to CRLF. -/
theorem convert_expand (token : Bool) (block : List UInt8) :
    convert (eolToStr .lf) (eolToStr .crlf) {} token block =
      let rest := if token then block.dropWhile (· == lf) else block
      (expand rest, rest.getLast? == some cr) := by
  have hne : eolToStr .lf ≠ eolToStr .crlf := by decide
  have hone : (eolToStr .lf).second = 0 := rfl
  simp only [convert, strip_none, if_neg hne, if_pos hone]
  cases token with
  | true => simp [oneCharLoop_delete false block _ (Nat.le_refl _)]
  | false =>
    have := oneCharLoop_expand false false [] block _ (Nat.le_refl _) (by simp)
    simp only [nil_append, length_nil] at this
    simp [this]

theorem twoCharStep_crlf (dest : Eol) (token : Bool) (before rest : List UInt8) :
    twoCharStep (eolToStr .crlf) dest ⟨before ++ 13 :: 10 :: rest, before.length, token⟩ =
      ⟨(before ++ dest.bytes) ++ rest, (before ++ dest.bytes).length, token⟩ := by
  by_cases hd : dest.second = 0
  · simp [twoCharStep, eolToStr, Eol.bytes, cr, lf, hd]
  · simp [twoCharStep, eolToStr, Eol.bytes, cr, lf, hd]

theorem twoCharStep_other (dest : Eol) (token : Bool) (before : List UInt8) {b : UInt8}
    {rest : List UInt8} (hpair : ∀ r, b = 13 → rest = 10 :: r → False) :
    twoCharStep (eolToStr .crlf) dest ⟨before ++ b :: rest, before.length, token⟩ =
      ⟨(before ++ [b]) ++ rest, (before ++ [b]).length, token⟩ := by
  cases rest with
  | nil => simp [twoCharStep, eolToStr, cr, lf]
  | cons c r => simp_all [twoCharStep, eolToStr, cr, lf]

theorem twoCharLoop_stop (source dest : Eol) (fuel : Nat) {w : Walk}
    (h : ¬ w.index + 1 < w.data.length) : twoCharLoop source dest fuel w = w := by
  cases fuel with
  | zero => rfl
  | succ fuel => rw [twoCharLoop, if_neg h]

/-- From a position on, the loop and what follows it replace the line ends of
the rest of the block. -/
theorem twoCharLoop_replace (dest : Eol) (token : Bool) (before rest : List UInt8) (fuel : Nat)
    (hfuel : rest.length ≤ fuel) :
    dropHalf (eolToStr .crlf)
        (twoCharLoop (eolToStr .crlf) dest fuel ⟨before ++ rest, before.length, token⟩) =
      before ++ replace dest.bytes rest := by
  induction rest using replace.induct generalizing before fuel with
  | case1 rest ih =>
    obtain ⟨fuel, rfl⟩ : ∃ n, fuel = n + 1 := ⟨fuel - 1, by simp at hfuel; omega⟩
    rw [twoCharLoop, if_pos (by simp), twoCharStep_crlf, ih _ _ (by simp at hfuel; omega)]
    simp [replace]
  | case2 =>
    rw [twoCharLoop_stop _ _ _ (by simp)]
    simp [dropHalf, replace, eolToStr, cr]
  | case3 b rest h1 h2 ih =>
    rw [replace.eq_3 _ _ _ h1 h2]
    cases rest with
    | nil =>
      have hb : ¬ b = cr := fun hb => h2 hb rfl
      rw [twoCharLoop_stop _ _ _ (by simp)]
      simp [dropHalf, replace, eolToStr, hb]
    | cons c rest =>
      obtain ⟨fuel, rfl⟩ : ∃ n, fuel = n + 1 := ⟨fuel - 1, by simp at hfuel; omega⟩
      rw [twoCharLoop, if_pos (by simp), twoCharStep_other _ _ _ h1,
        ih _ _ (by simp at hfuel ⊢; omega)]
      simp
  | case4 =>
    rw [twoCharLoop_stop _ _ _ (by simp)]
    simp [dropHalf, replace]

/-- What a block becomes from CRLF to another line end. -/
theorem convert_replace {dest : Eol} (hd : dest ≠ eolToStr .crlf) (params : ConvertParams)
    (token : Bool) (block : List UInt8) :
    convert (eolToStr .crlf) dest params token block =
      (replace dest.bytes (params.strip block), token) := by
  have htwo : (eolToStr .crlf).second ≠ 0 := by decide
  have hloop := twoCharLoop_replace dest token [] (params.strip block) _ (Nat.le_refl _)
  simp only [nil_append, length_nil] at hloop
  rw [← hloop]
  simp only [convert, if_neg hd.symm, if_neg htwo, ConvertParams.strip]

/-! ## Texts -/

variable {a b text : List UInt8} {blocks : List (List UInt8)}

theorem crFollowed_cons {c : UInt8} :
    CrFollowed (c :: text) ↔ (c = cr → text.head? = some lf) ∧ CrFollowed text := by
  constructor
  · intro h
    refine ⟨fun hc => ?_, fun i hi => h (i + 1) hi⟩
    rw [head?_eq_getElem?]
    exact h 0 (congrArg some hc)
  · intro ⟨hc, h⟩ i hi
    cases i with
    | zero =>
      rw [getElem?_cons_succ, ← head?_eq_getElem?]
      exact hc (Option.some.inj hi)
    | succ i => exact h i hi

theorem crFollowed_nil : CrFollowed [] :=
  fun i hi => by simp at hi

theorem CrFollowed.right (h : CrFollowed (a ++ b)) : CrFollowed b := by
  induction a with
  | nil => exact h
  | cons c a ih => exact ih (crFollowed_cons.mp h).2

/-- A block of the text, with the LF that follows when it ends with CR. -/
theorem CrFollowed.block (h : CrFollowed (a ++ b)) : CrFollowed (a ++ [lf]) := by
  induction a with
  | nil => exact crFollowed_cons.mpr ⟨fun _ => by contradiction, crFollowed_nil⟩
  | cons c a ih =>
    obtain ⟨hc, h⟩ := crFollowed_cons.mp h
    refine crFollowed_cons.mpr ⟨fun he => ?_, ih h⟩
    cases a with
    | nil => rfl
    | cons c a => exact hc he

theorem CrFollowed.cut (h : CrFollowed (a ++ b)) (ha : a.getLast? = some cr) :
    b.head? = some lf := by
  induction a with
  | nil => cases ha
  | cons c a ih =>
    obtain ⟨hc, h⟩ := crFollowed_cons.mp h
    cases a with
    | nil => exact hc (by simpa using ha)
    | cons d a => exact ih h (by simpa using ha)

theorem ne_cr {c : UInt8} (h : CrFollowed (c :: text))
    (hpair : ∀ r, c = 13 → text = 10 :: r → False) : c ≠ cr := by
  intro he
  obtain ⟨r, hr⟩ : ∃ r, text = lf :: r := head?_eq_some_iff.mp ((crFollowed_cons.mp h).1 he)
  exact hpair r he hr

theorem ne_cr_of_block {c : UInt8} (h : CrFollowed (c :: a ++ [lf]))
    (hpair : ∀ r, c = 13 → a = 10 :: r → False) (hhalf : c = 13 → a = [] → False) : c ≠ cr := by
  intro he
  cases a with
  | nil => exact hhalf he rfl
  | cons d a => exact hpair a he (by simpa [lf] using (crFollowed_cons.mp h).1 he)

/-- A text with CRLF for every LF, whatever its CRs. -/
def flatCrlf (text : List UInt8) : List UInt8 :=
  (text.filter (· != cr)).flatMap fun c => if c == lf then [cr, lf] else [c]

theorem flatCrlf_append (a b : List UInt8) : flatCrlf (a ++ b) = flatCrlf a ++ flatCrlf b := by
  simp [flatCrlf]

theorem toCrlf_eq (h : CrFollowed text) : toCrlf text = flatCrlf text := by
  induction text using toCrlf.induct with
  | case1 rest ih =>
    rw [toCrlf, ih (crFollowed_cons.mp (crFollowed_cons.mp h).2).2]
    rfl
  | case2 rest ih =>
    rw [toCrlf, ih (crFollowed_cons.mp h).2]
    rfl
  | case3 c rest h1 h2 ih =>
    have hlf : c ≠ lf := h2
    rw [toCrlf.eq_3 _ _ h1 h2, ih (crFollowed_cons.mp h).2]
    simp [flatCrlf, hlf, ne_cr h h1]
  | case4 => rfl

/-- A block becomes what the text becomes there, and a CR at its end a CRLF. -/
theorem expand_eq (h : CrFollowed (a ++ [lf])) :
    expand a = flatCrlf a ++ if a.getLast? == some cr then [cr, lf] else [] := by
  induction a using expand.induct with
  | case1 rest ih =>
    rw [expand, ih (crFollowed_cons.mp (crFollowed_cons.mp h).2).2]
    cases rest <;> rfl
  | case2 => rfl
  | case3 rest ih =>
    rw [expand, ih (crFollowed_cons.mp h).2]
    cases rest <;> rfl
  | case4 c rest h1 h2 h3 ih =>
    have hlf : c ≠ lf := h3
    have hcr : c ≠ cr := ne_cr_of_block h h1 h2
    rw [expand.eq_4 _ _ h1 h2 h3, ih (crFollowed_cons.mp h).2]
    cases rest <;> simp [flatCrlf, hlf, hcr]
  | case5 => rfl

/-! ## From LF to CRLF -/

/-- How many line ends are lost in the blocks: all LFs at the beginning of a
block but the first, when the block before ends with CR. -/
def lost : Bool → List (List UInt8) → Nat
  | _, [] => 0
  | token, b :: blocks =>
    (if token then (b.takeWhile (· == lf)).length - 1 else 0) + lost (b.getLast? == some cr) blocks

/-- A block that ends with CR is not followed by one that begins with two LFs. -/
def SafeCut (a b : List UInt8) : Prop :=
  ¬ (a.getLast? = some cr ∧ [lf, lf] <+: b)

theorem takeWhile_lf_le_one : (b.takeWhile (· == lf)).length - 1 = 0 ↔ ¬ [lf, lf] <+: b := by
  match b with
  | [] => simp
  | [c] => by_cases hc : c = lf <;> simp [hc]
  | c :: d :: b =>
    by_cases hc : c = lf
    · by_cases hd : d = lf <;> simp [hc, hd, eq_comm (a := lf)]
    · simp [hc, eq_comm (a := lf)]

theorem lost_eq_zero_iff : lost (a.getLast? == some cr) blocks = 0 ↔
    (a :: blocks).IsChain SafeCut := by
  induction blocks generalizing a with
  | nil => simp [lost]
  | cons b blocks ih =>
    rw [lost, isChain_cons_cons, Nat.add_eq_zero_iff, ih, SafeCut, not_and,
      ← takeWhile_lf_le_one]
    by_cases ha : a.getLast? = some cr <;> simp [ha]

theorem getLast?_dropWhile_lf (b : List UInt8) :
    ((b.dropWhile (· == lf)).getLast? == some cr) = (b.getLast? == some cr) := by
  induction b with
  | nil => rfl
  | cons c b ih =>
    by_cases hc : c = lf
    · rw [dropWhile_cons_of_pos (by simpa using hc), ih, hc]
      cases b <;> rfl
    · rw [dropWhile_cons_of_neg (by simpa using hc)]

/-- What a block loses at its beginning and how it goes on. -/
theorem convertBlocks_cons (token : Bool) :
    convertBlocks (eolToStr .lf) (eolToStr .crlf) {} token (b :: blocks) =
      expand (if token then b.dropWhile (· == lf) else b) ++
        convertBlocks (eolToStr .lf) (eolToStr .crlf) {} (b.getLast? == some cr) blocks := by
  rw [convertBlocks, convert_expand]
  cases token with
  | true => simp only [if_true, getLast?_dropWhile_lf]
  | false => rfl

theorem flatCrlf_lfs (b : List UInt8) : (flatCrlf b).length =
    2 * (b.takeWhile (· == lf)).length + (flatCrlf (b.dropWhile (· == lf))).length := by
  induction b with
  | nil => rfl
  | cons c b ih =>
    by_cases hc : c = lf
    · subst hc
      have : flatCrlf (lf :: b) = cr :: lf :: flatCrlf b := rfl
      simp only [this, takeWhile_cons, dropWhile_cons, beq_self_eq_true, if_true,
        length_cons, ih]
      omega
    · simp [hc]

theorem CrFollowed.dropWhile (h : CrFollowed (b ++ a)) :
    CrFollowed (b.dropWhile (· == lf) ++ a) := by
  rw [← takeWhile_append_dropWhile (p := (· == lf)) (l := b), append_assoc] at h
  exact h.right

theorem takeWhile_lf_pos (hb : b ≠ []) (h : (b ++ a).head? = some lf) :
    0 < (b.takeWhile (· == lf)).length := by
  cases b with
  | nil => exact absurd rfl hb
  | cons c b =>
    have hc : c = lf := by simpa using h
    simp [hc]

/-- Each lost line end shortens the result by two bytes. -/
theorem convertBlocks_length (token : Bool) (hne : ∀ b ∈ blocks, b ≠ [])
    (hcr : CrFollowed blocks.flatten) (htoken : token = true → blocks.flatten.head? = some lf) :
    (convertBlocks (eolToStr .lf) (eolToStr .crlf) {} token blocks).length + 2 * lost token blocks +
      (if token then 2 else 0) = (flatCrlf blocks.flatten).length := by
  induction blocks generalizing token with
  | nil =>
    cases token with
    | true => simp at htoken
    | false => rfl
  | cons b blocks ih =>
    rw [flatten_cons] at hcr htoken ⊢
    have ih := ih (b.getLast? == some cr) (fun c hc => hne c (mem_cons_of_mem _ hc))
      hcr.right (fun h => hcr.cut (by simpa using h))
    have hend : (if b.getLast? == some cr then [cr, lf] else []).length =
        if b.getLast? == some cr then 2 else 0 := by
      split <;> rfl
    rw [convertBlocks_cons, lost, flatCrlf_append, length_append, length_append]
    cases token with
    | true =>
      have hpos := takeWhile_lf_pos (hne b mem_cons_self) (htoken rfl)
      have hflat := flatCrlf_lfs b
      simp only [if_true]
      rw [expand_eq hcr.block.dropWhile, getLast?_dropWhile_lf, length_append, hend]
      omega
    | false =>
      simp only [Bool.false_eq_true, if_false]
      rw [expand_eq hcr.block, length_append, hend]
      omega

/-- When no line end is lost, the blocks become what the text becomes, but for
a line end that was completed before. -/
theorem convertBlocks_of_lost (token : Bool) (hne : ∀ b ∈ blocks, b ≠ [])
    (hcr : CrFollowed blocks.flatten) (htoken : token = true → blocks.flatten.head? = some lf)
    (hlost : lost token blocks = 0) :
    convertBlocks (eolToStr .lf) (eolToStr .crlf) {} token blocks =
      flatCrlf (if token then blocks.flatten.tail else blocks.flatten) := by
  induction blocks generalizing token with
  | nil => cases token <;> rfl
  | cons b blocks ih =>
    rw [lost, Nat.add_eq_zero_iff] at hlost
    obtain ⟨hfirst, hlost⟩ := hlost
    rw [flatten_cons] at hcr htoken ⊢
    have hcut : b.getLast? = some cr → blocks.flatten.head? = some lf := hcr.cut
    have ih := ih (b.getLast? == some cr) (fun c hc => hne c (mem_cons_of_mem _ hc))
      hcr.right (fun h => hcut (by simpa using h)) hlost
    -- the CRLF a block ends with is the one of the LF the next begins with
    have hjoin : (if b.getLast? == some cr then [cr, lf] else []) ++
        flatCrlf (if b.getLast? == some cr then blocks.flatten.tail else blocks.flatten) =
        flatCrlf blocks.flatten := by
      by_cases hb : b.getLast? = some cr
      · obtain ⟨rest, hrest⟩ : ∃ rest, blocks.flatten = lf :: rest :=
          head?_eq_some_iff.mp (hcut hb)
        simp only [hb, hrest, beq_self_eq_true, if_true]
        rfl
      · simp [hb]
    rw [convertBlocks_cons, ih]
    cases token with
    | true =>
      obtain ⟨c, b, rfl⟩ : ∃ c b', b = c :: b' := exists_cons_of_ne_nil (hne b mem_cons_self)
      have hc : c = lf := by simpa using htoken rfl
      subst hc
      have hdrop : (lf :: b).dropWhile (· == lf) = b := by
        have hsecond := takeWhile_lf_le_one.mp hfirst
        cases b with
        | nil => rfl
        | cons d b =>
          have hd : ¬ d = lf := fun hd => hsecond (by simp [hd])
          simp [hd]
      rw [if_pos rfl, expand_eq hcr.block.dropWhile, getLast?_dropWhile_lf, append_assoc,
        hjoin, hdrop, ← flatCrlf_append]
      rfl
    | false =>
      simp only [Bool.false_eq_true, if_false]
      rw [expand_eq hcr.block, append_assoc, hjoin, flatCrlf_append]

/-! ## From CRLF to LF -/

theorem toLf_eq (h : CrFollowed text) : toLf text = text.filter (· != cr) := by
  induction text using toLf.induct with
  | case1 rest ih =>
    rw [toLf, ih (crFollowed_cons.mp (crFollowed_cons.mp h).2).2]
    rfl
  | case2 c rest h1 ih =>
    rw [toLf.eq_2 _ _ h1, ih (crFollowed_cons.mp h).2]
    simp [ne_cr h h1]
  | case3 => rfl

theorem replace_lf_eq (h : CrFollowed (a ++ [lf])) : replace [lf] a = a.filter (· != cr) := by
  induction a using replace.induct with
  | case1 rest ih =>
    rw [replace, ih (crFollowed_cons.mp (crFollowed_cons.mp h).2).2]
    rfl
  | case2 => rfl
  | case3 c rest h1 h2 ih =>
    rw [replace.eq_3 _ _ _ h1 h2, ih (crFollowed_cons.mp h).2]
    simp [ne_cr_of_block h h1 h2]
  | case4 => rfl

theorem convertBlocks_lf (token : Bool) (hcr : CrFollowed blocks.flatten) :
    convertBlocks (eolToStr .crlf) (eolToStr .lf) {} token blocks =
      blocks.flatten.filter (· != cr) := by
  induction blocks generalizing token with
  | nil => rfl
  | cons b blocks ih =>
    rw [flatten_cons] at hcr ⊢
    rw [convertBlocks, convert_replace (by decide), strip_none, filter_append, ← ih token hcr.right,
      ← replace_lf_eq hcr.block]
    rfl

/-! ## The result -/

/-- The blocks of a text become what the text becomes as one block, which is
the text with its line ends converted. -/
def BlockingFree (d : Direction) (text : List UInt8) (blocks : List (List UInt8)) : Prop :=
  d.convertAll blocks = d.convertAll [text] ∧ d.convertAll [text] = d.converted text

theorem convertAll_whole (d : Direction) (hcr : CrFollowed text) :
    d.convertAll [text] = d.converted text := by
  cases d with
  | lfToCrlf =>
    have hlast : (text.getLast? == some cr) = false := by
      refine beq_eq_false_iff_ne.mpr fun h => ?_
      have := CrFollowed.cut (b := []) (by simpa using hcr) h
      cases this
    have hblock : CrFollowed (text ++ [lf]) := CrFollowed.block (b := []) (by simpa using hcr)
    calc Direction.convertAll .lfToCrlf [text]
      _ = expand text ++ [] := convertBlocks_cons false
      _ = toCrlf text := by simp [expand_eq hblock, hlast, toCrlf_eq hcr]
  | crlfToLf =>
    calc Direction.convertAll .crlfToLf [text]
      _ = [text].flatten.filter (· != cr) := convertBlocks_lf false (by simpa using hcr)
      _ = toLf text := by rw [flatten_singleton, toLf_eq hcr]

/-- From LF to CRLF the blocks become what the text becomes when no line end is
lost, and something shorter otherwise. -/
theorem convertAll_crlf_iff (hcr : CrFollowed blocks.flatten) (hne : ∀ b ∈ blocks, b ≠ []) :
    Direction.convertAll .lfToCrlf blocks = toCrlf blocks.flatten ↔ lost false blocks = 0 := by
  rw [toCrlf_eq hcr]
  constructor
  · intro h
    have hlen := convertBlocks_length false hne hcr (by simp)
    have hsame := congrArg List.length h
    simp only [Direction.convertAll, Direction.source, Direction.dest] at hsame
    simp only [Bool.false_eq_true, if_false] at hlen
    omega
  · intro h
    exact convertBlocks_of_lost false hne hcr (by simp) h

theorem lost_false_iff : lost false blocks = 0 ↔ blocks.IsChain SafeCut := by
  cases blocks with
  | nil => simp [lost]
  | cons b blocks =>
    rw [← lost_eq_zero_iff, lost]
    simp

/-- Conversion does not depend on blocking exactly when no line end is lost
at a cut. From CRLF to LF none ever is. From LF to CRLF the blocks of a text
lose one where a block that ends with CR is followed by one that begins with two
LFs. -/
theorem blockingFree_iff (d : Direction) (hcr : CrFollowed text) (hsplit : blocks.flatten = text)
    (hne : ∀ b ∈ blocks, b ≠ []) :
    BlockingFree d text blocks ↔ (d = .lfToCrlf → blocks.IsChain SafeCut) := by
  subst hsplit
  have hwhole := convertAll_whole d hcr
  rw [BlockingFree, and_iff_left hwhole, hwhole]
  cases d with
  | lfToCrlf =>
    rw [forall_prop_of_true rfl, ← lost_false_iff]
    exact convertAll_crlf_iff hcr hne
  | crlfToLf =>
    have heq : Direction.convertAll .crlfToLf blocks = toLf blocks.flatten :=
      (convertBlocks_lf false hcr).trans (toLf_eq hcr).symm
    exact ⟨fun _ h => (by cases h), fun _ => heq⟩

/-- The text `a CR LF LF b` cut between its CR and its first LF. -/
def sampleBlocks : List (List UInt8) :=
  [[97, 13], [10, 10, 98]]

theorem sampleBlocks_crFollowed : CrFollowed sampleBlocks.flatten := by
  simp [sampleBlocks, crFollowed_cons, crFollowed_nil, cr, lf]

/-- The second LF of the text is lost with the one that was completed. -/
theorem sampleBlocks_lose_lf : CrFollowed sampleBlocks.flatten ∧ (∀ b ∈ sampleBlocks, b ≠ []) ∧
    Direction.convertAll .lfToCrlf [sampleBlocks.flatten] = [97, 13, 10, 13, 10, 98] ∧
    Direction.convertAll .lfToCrlf sampleBlocks = [97, 13, 10, 98] := by
  exact ⟨sampleBlocks_crFollowed, by decide, by decide, by decide⟩

theorem blockingFree_iff_sample :
    BlockingFree .crlfToLf sampleBlocks.flatten sampleBlocks := by
  exact (blockingFree_iff .crlfToLf sampleBlocks_crFollowed rfl (by decide)).mpr (by simp)

end NetBox.Base.LineEnds
