import NetBox.Scp.Containment
import NetBox.Base.Url

/-! # The remote name of a local file

`RestoreChars` of CopyParam.cpp takes back what `ValidLocalFileName` has replaced
by codes of the form `%XX`. The percent sign is not replaced itself, so a name
that holds such a code already is read as another one.
-/
namespace NetBox.Scp
open Base.Text List

/-- `LocalInvalidChars` -/
def localInvalidChars : UnicodeString := wstr "/\\:*?\"<>|"

def reservedNames : List UnicodeString :=
  ["CON", "PRN", "AUX", "NUL",
    "COM1", "COM2", "COM3", "COM4", "COM5", "COM6", "COM7", "COM8", "COM9",
    "LPT1", "LPT2", "LPT3", "LPT4", "LPT5", "LPT6", "LPT7", "LPT8", "LPT9"].map wstr

/-- `IsReservedName`, which looks at the part before the first dot. -/
def isReservedName (t : TextApi) (fileName : UnicodeString) : Bool :=
  let name := fileName.takeWhile (· != 46)
  (name.length == 3 || name.length == 4) && reservedNames.any (t.sameText name)

/-- The digits behind a percent sign are the code of a character that was replaced,
or of a blank or dot at the end of the name. -/
def isCharCode (tokenizible done : UnicodeString) (a b : WChar) (rest : UnicodeString) : Bool :=
  let ch := (hexToByte a b).toUInt16
  ch != 0 && ch != slash &&
    (tokenizible.contains ch || ((ch == 32 || (ch == 46 && !done.isEmpty)) && rest.isEmpty))

/-- The digits behind a percent sign are the code that is put into a reserved name. -/
def isReservedCode (t : TextApi) (done : UnicodeString) (a b : WChar) (rest : UnicodeString) :
    Bool :=
  a == 48 && b == 48 && (rest.isEmpty || rest.head? == some 46) && isReservedName t (done ++ rest)

/-- The loop of `RestoreChars`; `done` is the part in front that is restored. -/
def restoreFrom (t : TextApi) (tokenizible : UnicodeString) (done : UnicodeString) :
    UnicodeString → UnicodeString
  | [] => done
  | ch :: rest =>
    if ch = tokenPrefixChar then
      match rest with
      | a :: b :: after =>
        if isCharCode tokenizible done a b after then
          restoreFrom t tokenizible (done ++ [(hexToByte a b).toUInt16]) after
        else if isReservedCode t done a b after then restoreFrom t tokenizible done after
        else restoreFrom t tokenizible (done ++ [ch]) (a :: b :: after)
      | rest => restoreFrom t tokenizible (done ++ [ch]) rest
    else restoreFrom t tokenizible (done ++ [ch]) rest
termination_by name => name.length

/-- `RestoreChars` -/
def restoreChars (t : TextApi) (n : Naming) (fileName : UnicodeString) : UnicodeString :=
  if n.invalidCharsReplacement = tokenReplacement then
    restoreFrom t n.tokenizibleChars [] fileName
  else fileName

/-! ## Codes in a name -/

/-- The digits behind a percent sign are a code. -/
def isCode (t : TextApi) (done : UnicodeString) (a b : WChar) (rest : UnicodeString) : Bool :=
  isCharCode localInvalidChars done a b rest || isReservedCode t done a b rest

/-- What is behind a percent sign begins with a code. -/
def codeAt (t : TextApi) (done : UnicodeString) : UnicodeString → Bool
  | a :: b :: rest => isCode t done a b rest
  | _ => false

/-- A name holds a code already; `done` is what is in front of it. -/
def hasCode (t : TextApi) : UnicodeString → UnicodeString → Bool
  | _, [] => false
  | done, ch :: rest =>
    (ch == tokenPrefixChar && codeAt t done rest) || hasCode t (done ++ [ch]) rest

/-- The local name of one character. -/
def localChar (ch : WChar) : UnicodeString :=
  if localInvalidChars.contains ch then tokenPrefixChar :: byteToHex ch.toUInt8 else [ch]

/-- The settings of the token mode with the default characters. -/
structure TokenMode (n : Naming) : Prop where
  replacement : n.invalidCharsReplacement = tokenReplacement
  tokenizible : n.tokenizibleChars = localInvalidChars

theorem invalid_spec : ∀ ch ∈ localInvalidChars, ch ≠ tokenPrefixChar ∧ ¬ ch > 0xFF ∧ ch ≠ 0 ∧
    hexValue ch = none ∧ (hexToByte (hexDigit (ch.toUInt8.toNat / 16))
      (hexDigit (ch.toUInt8.toNat % 16))).toUInt16 = ch :=
  forall_mem_of_all (by decide)

theorem replaceChars_token (invalid fileName : UnicodeString) :
    replaceChars tokenReplacement localInvalidChars invalid fileName =
      some (fileName.flatMap localChar) := by
  induction fileName with
  | nil => rfl
  | cons ch rest ih =>
    rw [replaceChars, flatMap_cons, localChar]
    simp only [beq_self_eq_true, if_true, Bool.true_and]
    by_cases hch : localInvalidChars.contains ch = true
    · obtain ⟨hpercent, hbyte, -⟩ := invalid_spec ch (contains_iff_mem.mp hch)
      rw [if_pos hch, if_pos hch, if_neg (by simp [hpercent]), if_neg hbyte, ih]
      rfl
    · rw [if_neg hch, if_neg hch, ih]
      rfl

theorem validLocalFileName_token {n : Naming} (h : TokenMode n) (fileName : UnicodeString) :
    validLocalFileName n fileName = some (fileName.flatMap localChar) := by
  rw [validLocalFileName, h.replacement, if_pos (by decide), h.tokenizible, replaceChars_token]

/-- Without two digits there is no code. -/
theorem isCode_of_not_hex (t : TextApi) (done : UnicodeString) {a b : WChar}
    (h : hexValue a = none ∨ hexValue b = none) (rest : UnicodeString) :
    isCode t done a b rest = false := by
  have hbyte : hexToByte a b = 0 := by
    rw [hexToByte]
    rcases h with h | h
    · rw [h]
    · rw [h]
      cases hexValue a <;> rfl
  have hzero : (a == 48 && b == 48) = false := by
    rw [Bool.and_eq_false_iff]
    rcases h with h | h
    · exact .inl (beq_eq_false_iff_ne.mpr fun he => by rw [he] at h; cases h)
    · exact .inr (beq_eq_false_iff_ne.mpr fun he => by rw [he] at h; cases h)
  rw [isCode, isCharCode, isReservedCode, hbyte, hzero]
  rfl

theorem localChar_of_valid {ch : WChar} (h : ¬ localInvalidChars.contains ch = true) :
    localChar ch = [ch] := by
  rw [localChar, if_neg h]

theorem localChar_of_invalid {ch : WChar} (h : localInvalidChars.contains ch = true) :
    localChar ch = [tokenPrefixChar, hexDigit (ch.toUInt8.toNat / 16), hexDigit (ch.toUInt8.toNat % 16)] := by
  rw [localChar, if_pos h]
  rfl

theorem flatMap_localChar_isEmpty (rest : UnicodeString) :
    (rest.flatMap localChar).isEmpty = rest.isEmpty := by
  cases rest with
  | nil => rfl
  | cons ch rest =>
    rw [flatMap_cons, localChar]
    split <;> rfl

/-- A name ends or has its first dot here. -/
def endsName (rest : UnicodeString) : Bool := rest.isEmpty || rest.head? == some 46

theorem endsName_local (rest : UnicodeString) :
    endsName (rest.flatMap localChar) = endsName rest := by
  cases rest with
  | nil => rfl
  | cons ch rest =>
    rw [flatMap_cons]
    by_cases hch : localInvalidChars.contains ch = true
    · have hdot : ch ≠ 46 := by
        rintro rfl
        revert hch
        decide
      rw [localChar_of_invalid hch]
      simp [endsName, tokenPrefixChar, hdot]
    · rw [localChar_of_valid hch]
      rfl

variable {rest : UnicodeString}

theorem isReservedName_end (t : TextApi) (done : UnicodeString) (h : endsName rest = true) :
    isReservedName t (done ++ rest) = isReservedName t done := by
  have hnil : rest.takeWhile (· != 46) = [] := by
    cases rest with
    | nil => rfl
    | cons ch rest =>
      have hdot : ch = 46 := by simpa [endsName] using h
      rw [hdot]
      rfl
  have hname : (done ++ rest).takeWhile (· != 46) = done.takeWhile (· != 46) := by
    rw [takeWhile_append]
    split
    next hall =>
      rw [hnil, append_nil]
      exact ((takeWhile_sublist _).eq_of_length hall).symm
    next => rfl
  rw [isReservedName, hname]
  rfl

/-- The rest of a name may be local already when it is looked for a code. -/
theorem isCode_local (t : TextApi) (done : UnicodeString) (a b : WChar) (rest : UnicodeString) :
    isCode t done a b (rest.flatMap localChar) = isCode t done a b rest := by
  have hchar : isCharCode localInvalidChars done a b (rest.flatMap localChar) =
      isCharCode localInvalidChars done a b rest := by
    rw [isCharCode, flatMap_localChar_isEmpty]
    rfl
  have hreserved : isReservedCode t done a b (rest.flatMap localChar) =
      isReservedCode t done a b rest := by
    show (a == 48 && b == 48 && endsName (rest.flatMap localChar) && isReservedName t _) =
      (a == 48 && b == 48 && endsName rest && isReservedName t _)
    rw [endsName_local]
    cases h : endsName rest with
    | false => rw [Bool.and_false, Bool.false_and, Bool.false_and]
    | true => rw [isReservedName_end t done h,
        isReservedName_end t done (by rw [endsName_local, h])]
  rw [isCode, hchar, hreserved, isCode]

theorem codeAt_local (t : TextApi) (done rest : UnicodeString) :
    codeAt t done (rest.flatMap localChar) = codeAt t done rest := by
  have hpercent : hexValue tokenPrefixChar = none := by decide
  cases rest with
  | nil => rfl
  | cons a rest =>
    rw [flatMap_cons]
    by_cases ha : localInvalidChars.contains a = true
    · -- the code of the character is behind the percent sign, not a digit
      have hnone := (invalid_spec a (contains_iff_mem.mp ha)).2.2.2.1
      rw [localChar_of_invalid ha]
      have hleft : codeAt t done ([tokenPrefixChar, hexDigit (a.toUInt8.toNat / 16),
          hexDigit (a.toUInt8.toNat % 16)] ++ rest.flatMap localChar) = false :=
        isCode_of_not_hex t done (.inl hpercent) _
      rw [hleft]
      cases rest with
      | nil => rfl
      | cons b rest => exact (isCode_of_not_hex t done (.inl hnone) rest).symm
    · rw [localChar_of_valid ha]
      cases rest with
      | nil => rfl
      | cons b rest =>
        rw [flatMap_cons]
        by_cases hb : localInvalidChars.contains b = true
        · have hnone := (invalid_spec b (contains_iff_mem.mp hb)).2.2.2.1
          rw [localChar_of_invalid hb]
          have hleft : codeAt t done ([a] ++ ([tokenPrefixChar, hexDigit (b.toUInt8.toNat / 16),
              hexDigit (b.toUInt8.toNat % 16)] ++ rest.flatMap localChar)) = false :=
            isCode_of_not_hex t done (.inr hpercent) _
          rw [hleft]
          exact (isCode_of_not_hex t done (.inr hnone) rest).symm
        · rw [localChar_of_valid hb]
          exact isCode_local t done a b rest

/-- A code is the same in the local name. -/
theorem flatMap_of_codeAt {t : TextApi} {done rest : UnicodeString}
    (h : codeAt t done rest = true) :
    ∃ a b after, rest = a :: b :: after ∧
      rest.flatMap localChar = a :: b :: after.flatMap localChar := by
  match rest, h with
  | a :: b :: after, h =>
    have hvalid : ∀ ch, hexValue ch ≠ none → localChar ch = [ch] := by
      intro ch hch
      refine localChar_of_valid fun hinvalid => hch ?_
      exact (invalid_spec ch (contains_iff_mem.mp hinvalid)).2.2.2.1
    have hhex : ¬ (hexValue a = none ∨ hexValue b = none) := by
      intro hnone
      rw [codeAt, isCode_of_not_hex t done hnone] at h
      cases h
    obtain ⟨ha, hb⟩ := not_or.mp hhex
    refine ⟨a, b, after, rfl, ?_⟩
    rw [flatMap_cons, flatMap_cons, hvalid a ha, hvalid b hb]
    rfl

/-! ## What is restored -/

variable (t : TextApi)

theorem restoreFrom_other (done : UnicodeString) {ch : WChar} (h : ch ≠ tokenPrefixChar)
    (rest : UnicodeString) :
    restoreFrom t localInvalidChars done (ch :: rest) =
      restoreFrom t localInvalidChars (done ++ [ch]) rest := by
  rw [restoreFrom.eq_def]
  dsimp only
  rw [if_neg h]

theorem restoreFrom_plain (done : UnicodeString) (h : codeAt t done rest = false) :
    restoreFrom t localInvalidChars done (tokenPrefixChar :: rest) =
      restoreFrom t localInvalidChars (done ++ [tokenPrefixChar]) rest := by
  rw [restoreFrom.eq_def]
  dsimp only
  rw [if_pos rfl]
  split
  next a b after =>
    rw [codeAt, isCode, Bool.or_eq_false_iff] at h
    rw [if_neg (by simp [h.1]), if_neg (by simp [h.2])]
  next => rfl

/-- A code becomes one character at most. -/
theorem restoreFrom_code (done : UnicodeString) (h : codeAt t done rest = true) :
    ∃ a b after restored, rest = a :: b :: after ∧ restored.length ≤ 1 ∧
      restoreFrom t localInvalidChars done (tokenPrefixChar :: rest) =
        restoreFrom t localInvalidChars (done ++ restored) after := by
  match rest, h with
  | a :: b :: after, h =>
    rw [restoreFrom, if_pos rfl]
    rw [codeAt, isCode, Bool.or_eq_true] at h
    by_cases hchar : isCharCode localInvalidChars done a b after = true
    · rw [if_pos hchar]
      exact ⟨a, b, after, [(hexToByte a b).toUInt16], rfl, Nat.le_refl 1, rfl⟩
    · rw [if_neg hchar, if_pos (h.resolve_left hchar)]
      exact ⟨a, b, after, [], rfl, Nat.zero_le 1, by rw [append_nil]⟩

/-- The code of a character that was replaced is taken back. -/
theorem restoreFrom_invalid (done : UnicodeString) {ch : WChar}
    (h : localInvalidChars.contains ch = true) (hslash : ch ≠ slash) (rest : UnicodeString) :
    restoreFrom t localInvalidChars done (localChar ch ++ rest) =
      restoreFrom t localInvalidChars (done ++ [ch]) rest := by
  obtain ⟨-, -, hzero, -, hbyte⟩ := invalid_spec ch (contains_iff_mem.mp h)
  have hcode : isCharCode localInvalidChars done (hexDigit (ch.toUInt8.toNat / 16))
      (hexDigit (ch.toUInt8.toNat % 16)) rest = true := by
    rw [isCharCode, hbyte, h]
    simp [hzero, hslash]
  rw [localChar_of_invalid h, cons_append, cons_append, cons_append,
    nil_append, restoreFrom, if_pos rfl, if_pos hcode, hbyte]

/-- A name without a code comes back, and of one with a code something is lost. -/
theorem restoreFrom_local (name done : UnicodeString) (hslash : slash ∉ name) :
    if hasCode t done name then
      (restoreFrom t localInvalidChars done (name.flatMap localChar)).length <
        done.length + name.length
    else restoreFrom t localInvalidChars done (name.flatMap localChar) = done ++ name := by
  match name with
  | [] =>
    rw [hasCode, if_neg (by decide), append_nil, flatMap_nil, restoreFrom]
  | ch :: rest =>
    obtain ⟨hch, hrest⟩ := not_or.mp (mt mem_cons.mpr hslash)
    have ih := restoreFrom_local rest (done ++ [ch]) hrest
    rw [length_append, length_singleton, Nat.add_assoc, Nat.add_comm 1,
      append_assoc, singleton_append] at ih
    rw [hasCode, flatMap_cons, length_cons]
    by_cases hpercent : ch = tokenPrefixChar
    · subst hpercent
      rw [localChar_of_valid (by decide), singleton_append, beq_self_eq_true, Bool.true_and]
      cases hcode : codeAt t done rest with
      | false =>
        rw [Bool.false_or, restoreFrom_plain t done (by rw [codeAt_local, hcode])]
        exact ih
      | true =>
        obtain ⟨a, b, after, hsplit, hlocal⟩ := flatMap_of_codeAt hcode
        obtain ⟨a', b', after', restored, hsplit', hshort, hrun⟩ :=
          restoreFrom_code t done (by rw [codeAt_local, hcode])
        obtain ⟨-, -, rfl⟩ : a = a' ∧ b = b' ∧ after.flatMap localChar = after' := by
          rw [hlocal] at hsplit'
          simpa using hsplit'
        have hafter : slash ∉ after := fun h => hrest (by rw [hsplit]; simp [h])
        have hlen : rest.length = after.length + 2 := by rw [hsplit]; rfl
        have ih' := restoreFrom_local after (done ++ restored) hafter
        rw [Bool.true_or, if_pos rfl, hrun]
        split at ih'
        · rw [length_append] at ih'
          omega
        · rw [ih', length_append, length_append]
          omega
    · have hsame : restoreFrom t localInvalidChars done (localChar ch ++ rest.flatMap localChar) =
          restoreFrom t localInvalidChars (done ++ [ch]) (rest.flatMap localChar) := by
        by_cases hinvalid : localInvalidChars.contains ch = true
        · exact restoreFrom_invalid t done hinvalid (Ne.symm hch) _
        · rw [localChar_of_valid hinvalid, singleton_append, restoreFrom_other t done hpercent]
      rw [hsame, beq_eq_false_iff_ne.mpr hpercent, Bool.false_and, Bool.false_or]
      exact ih
termination_by name.length
decreasing_by
  · simp
  · simp only [length_cons]
    omega

/-- The remote name comes back from the local one. -/
def NameRestored (n : Naming) (name : UnicodeString) : Prop :=
  ∃ fileName, validLocalFileName n name = some fileName ∧ restoreChars t n fileName = name

theorem nameRestored_token {n : Naming} (h : TokenMode n) (name : UnicodeString) :
    NameRestored t n name ↔
      restoreFrom t localInvalidChars [] (name.flatMap localChar) = name := by
  have hrestore : ∀ fileName, restoreChars t n fileName =
      restoreFrom t localInvalidChars [] fileName := by
    intro fileName
    rw [restoreChars, if_pos h.replacement, h.tokenizible]
  constructor
  · rintro ⟨fileName, hlocal, hname⟩
    rw [validLocalFileName_token h, Option.some.injEq] at hlocal
    rw [hlocal, ← hrestore, hname]
  · intro hname
    exact ⟨_, validLocalFileName_token h name, by rw [hrestore, hname]⟩

theorem nameRestored_iff {n : Naming} (h : TokenMode n) {name : UnicodeString}
    (hslash : slash ∉ name) : NameRestored t n name ↔ hasCode t [] name = false := by
  rw [nameRestored_token t h]
  have hrun := restoreFrom_local t name [] hslash
  rw [length_nil, Nat.zero_add, nil_append] at hrun
  cases hcode : hasCode t [] name with
  | false =>
    rw [hcode, if_neg Bool.false_ne_true] at hrun
    exact iff_of_true hrun rfl
  | true =>
    rw [hcode, if_pos rfl] at hrun
    refine iff_of_false (fun hname => ?_) (fun h => Bool.noConfusion h)
    rw [hname] at hrun
    exact Nat.lt_irrefl _ hrun

/-- The remote name comes back from the local one exactly when it holds no code
already, and two names without a code have different local names. -/
theorem localName_reversible {n : Naming} (h : TokenMode n) :
    (∀ name, slash ∉ name → (NameRestored t n name ↔ hasCode t [] name = false)) ∧
      ∀ name other, slash ∉ name → slash ∉ other →
        hasCode t [] name = false → hasCode t [] other = false →
        validLocalFileName n name = validLocalFileName n other → name = other := by
  refine ⟨fun name hslash => nameRestored_iff t h hslash, ?_⟩
  intro name other hslash hslash' hcode hcode' hsame
  obtain ⟨fileName, hlocal, hname⟩ := (nameRestored_iff t h hslash).mpr hcode
  obtain ⟨fileName', hlocal', hother⟩ := (nameRestored_iff t h hslash').mpr hcode'
  rw [hsame, hlocal', Option.some.injEq] at hlocal
  rw [← hname, ← hother, hlocal]

theorem tokenMode_default : TokenMode defaultNaming := ⟨rfl, rfl⟩

theorem localName_reversible_colon :
    NameRestored asciiText defaultNaming (wstr "a:b") :=
  ((localName_reversible asciiText tokenMode_default).1 (wstr "a:b")
    (by decide)).mpr (by decide)

/-- A name that holds the code of a colon is taken for one with a colon. -/
theorem literalCode_not_restored :
    ¬ NameRestored asciiText defaultNaming (wstr "a%3Ab") ∧
      validLocalFileName defaultNaming (wstr "a%3Ab") =
        validLocalFileName defaultNaming (wstr "a:b") := by
  constructor
  · rw [nameRestored_iff asciiText tokenMode_default (by decide)]
    decide
  · decide

end NetBox.Scp
