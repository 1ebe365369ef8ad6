import NetBox.Storage.KeyNames
import NetBox.Session.History
import NetBox.Base.Replace

/-! # Names of keys come back

A name is stored as its bytes with `%XX` for some of them, and what is not ASCII begins
with a mark. Which bytes are escaped makes no difference to the reader, as long as `%` is
one of them. What is lost are surrogates that are not half of a pair, as they have no
bytes of their own.
-/

namespace NetBox.Storage

open Base.Text Lib Session List

/-- The text of ASCII bytes. -/
def wide (bytes : List UInt8) : UnicodeString := bytes.map (·.toUInt16)

theorem wide_append (a b : List UInt8) : wide (a ++ b) = wide a ++ wide b := map_append

def hexToken (b : UInt8) : List UInt8 :=
  [37, (hexDigit (b.toNat / 16)).toUInt8, (hexDigit (b.toNat % 16)).toUInt8]

def token (escapes : Bool → UInt8 → Bool) (candot : Bool) (b : UInt8) : List UInt8 :=
  if escapes candot b then hexToken b else [b]

/-- The bytes with those escaped that are said to need it. -/
def escapeWith (escapes : Bool → UInt8 → Bool) : Bool → List UInt8 → List UInt8
  | _, [] => []
  | candot, b :: rest => token escapes candot b ++ escapeWith escapes true rest

/-- What `MungeStr` escapes. -/
def mungedSource (str : UnicodeString) : List UInt8 :=
  if str.length < (Utf8.encode str).length then bom ++ Utf8.encode str else Utf8.encode str

/-- `MungeStr` with its flag for values comes back with this name. An asterisk in the name
of a value is put back. -/
def Munges (str : UnicodeString) (value : Bool) (result : UnicodeString) : Prop :=
  if value then ReplaceReturns (wstr "%2A") (wstr "*") (mungeStr str false) result
  else result = mungeStr str false

/-- The escaping can be undone, and is ASCII. -/
structure Escapes (escapes : Bool → UInt8 → Bool) : Prop where
  percent : ∀ candot, escapes candot 37 = true
  ascii : ∀ candot b, escapes candot b = false → b < 128

variable {escapes escapes' : Bool → UInt8 → Bool} {candot : Bool} {b : UInt8} {bytes : List UInt8}

theorem escapeRegistryKey_eq (candot : Bool) (bytes : List UInt8) :
    escapeRegistryKey candot bytes = escapeWith isEscaped candot bytes := by
  induction bytes generalizing candot with
  | nil => rfl
  | cons b bytes ih =>
    rw [escapeRegistryKey, escapeWith, token, ih]
    split <;> rfl

theorem escapes_isEscaped : Escapes isEscaped := by
  refine ⟨by decide, fun candot b h => ?_⟩
  simp only [isEscaped, Bool.or_eq_false_iff, decide_eq_false_iff_not, UInt8.not_lt] at h
  exact UInt8.lt_of_le_of_lt h.1.2 (by decide)

/-! ## Reading the bytes -/

theorem forall_byte {P : UInt8 → Prop} (h : ∀ n : Fin 256, P n.val.toUInt8) (b : UInt8) : P b := by
  have hb := h ⟨b.toNat, b.toNat_lt⟩
  rwa [show b.toNat.toUInt8 = b from b.ofNat_toNat] at hb

theorem unescape_hexToken (b : UInt8) (rest : List UInt8) :
    unescapeRegistryKey (hexToken b ++ rest) = b :: unescapeRegistryKey rest := by
  have h : ∀ b : UInt8, ((digitValue (hexDigit (b.toNat / 16)).toUInt8 * 16 +
      digitValue (hexDigit (b.toNat % 16)).toUInt8) % 256).toNat.toUInt8 = b := forall_byte (by decide +kernel)
  exact congrArg (· :: unescapeRegistryKey rest) (h b)

theorem unescape_plain (h : b ≠ 37) (rest : List UInt8) :
    unescapeRegistryKey (b :: rest) = b :: unescapeRegistryKey rest := by
  rw [unescapeRegistryKey.eq_def]
  split
  next heq => exact absurd (List.cons.inj heq).1 h
  next heq => rw [(List.cons.inj heq).1, (List.cons.inj heq).2]
  next heq => cases heq

theorem unescape_escapeWith (h : Escapes escapes) (candot : Bool) (bytes : List UInt8) :
    unescapeRegistryKey (escapeWith escapes candot bytes) = bytes := by
  induction bytes generalizing candot with
  | nil => rfl
  | cons b bytes ih =>
    rw [escapeWith, token]
    split
    · rw [unescape_hexToken, ih]
    next hplain =>
      rw [singleton_append, unescape_plain, ih]
      rintro rfl
      exact hplain (h.percent candot)

theorem escapeWith_eq_nil : escapeWith escapes candot bytes = [] ↔ bytes = [] := by
  cases bytes with
  | nil => simp [escapeWith]
  | cons b bytes =>
    rw [escapeWith, token]
    split <;> simp [hexToken]

/-- The bytes of an escaped text are ASCII and not zero. -/
theorem mem_escapeWith (h : Escapes escapes) (hzero : 0 ∉ bytes) {c : UInt8}
    (hc : c ∈ escapeWith escapes candot bytes) : c < 128 ∧ c ≠ 0 := by
  induction bytes generalizing candot with
  | nil => cases hc
  | cons b bytes ih =>
    rw [escapeWith, mem_append, token] at hc
    rcases hc with hc | hc
    · split at hc
      · have hall : ∀ b, ((hexToken b).all fun c => decide (c < 128 ∧ c ≠ 0)) = true :=
          forall_byte (by decide +kernel)
        exact of_decide_eq_true (all_eq_true.mp (hall b) c hc)
      next hplain =>
        rw [mem_singleton.mp hc]
        exact ⟨h.ascii candot b (Bool.eq_false_iff.mpr hplain),
          fun he => hzero (he ▸ mem_cons_self)⟩
    · exact ih (fun hmem => hzero (mem_cons_of_mem _ hmem)) hc

theorem zero_not_mem_wide (h : Escapes escapes) (hzero : 0 ∉ bytes) :
    0 ∉ wide (escapeWith escapes candot bytes) := by
  intro hmem
  obtain ⟨c, hc, he⟩ := mem_map.mp hmem
  exact (mem_escapeWith h hzero hc).2 (UInt8.toUInt16_inj.mp he)

theorem narrow_wide (bytes : List UInt8) : (wide bytes).map (·.toUInt8) = bytes := by
  rw [wide, map_map]
  exact (map_congr_left fun c _ => UInt8.toUInt8_toUInt16 c).trans (map_id _)

theorem encode_wide (h : ∀ c ∈ bytes, c < 128) : Utf8.encode (wide bytes) = bytes := by
  have hascii : ∀ u ∈ wide bytes, u.toNat < 128 := by
    intro u hu
    obtain ⟨c, hc, rfl⟩ := mem_map.mp hu
    exact UInt8.lt_iff_toNat_lt.mp (h c hc)
  rw [Utf8.encode_ascii hascii, narrow_wide]

variable {str : UnicodeString}

theorem wide_narrow (h : ∀ u ∈ str, u.toNat < 128) : wide (str.map (·.toUInt8)) = str := by
  rw [wide, map_map]
  refine (map_congr_left fun u hu => ?_).trans (map_id str)
  have hu := h u hu
  apply UInt16.toNat_inj.mp
  simp
  omega

/-- What is read of an escaped text. -/
theorem unMungeStr_escaped (api : NameApi) (h : Escapes escapes) (hne : bytes ≠ [])
    (hzero : 0 ∉ bytes) : unMungeStr api (wide (escapeWith escapes false bytes)) =
      if bytes.take bom.length = bom then api.reader.toText (bytes.drop bom.length)
      else api.ansiToString bytes := by
  have hnil : (wide (escapeWith escapes false bytes)).isEmpty = false := by
    rw [Bool.eq_false_iff, ne_eq, List.isEmpty_iff, wide, map_eq_nil_iff, escapeWith_eq_nil]
    exact hne
  have hcstr : cstr (escapeWith escapes false bytes) = escapeWith escapes false bytes :=
    cstr_eq fun hmem => (mem_escapeWith h hzero hmem).2 rfl
  rw [unMungeStr, hnil, if_neg Bool.false_ne_true,
    encode_wide fun c hc => (mem_escapeWith h hzero hc).1]
  simp only [hcstr, unescape_escapeWith h, cstr_eq hzero]

/-- The name comes back as the characters that it has. -/
theorem unMungeStr_source (api : NameApi) (h : Escapes escapes)
    (hansi : ∀ bytes, (∀ b ∈ bytes, b < 128) → api.ansiToString bytes = wide bytes)
    (hzero : 0 ∉ str) :
    unMungeStr api (wide (escapeWith escapes false (mungedSource str))) =
      (Utf8.chars str).flatMap Utf8.units := by
  by_cases hnil : str = []
  · subst hnil
    rfl
  have hutf : Utf8.encode str ≠ [] := mt Utf8.encode_eq_nil.mp hnil
  have hbytes : 0 ∉ Utf8.encode str := mt Utf8.zero_mem_encode.mp hzero
  unfold mungedSource
  split
  · have hmarked : 0 ∉ bom ++ Utf8.encode str := by simp [hbytes, bom]
    rw [unMungeStr_escaped api h (by simp [bom]) hmarked, if_pos take_left, drop_left]
    exact api.reader.toText_encoded _
  next hshort =>
    have hascii := (Utf8.length_encode str).2 (Nat.not_lt.mp hshort)
    have hplain : Utf8.WellFormed str :=
      Utf8.wellFormed_of_plain fun u hu => Utf8.isSurrogate_ascii (hascii u hu)
    have hall : ∀ b ∈ str.map (·.toUInt8), b < 128 := by
      intro b hb
      obtain ⟨u, hu, rfl⟩ := mem_map.mp hb
      have hu := hascii u hu
      rw [UInt8.lt_iff_toNat_lt, UInt16.toNat_toUInt8]
      exact Nat.lt_of_le_of_lt (Nat.mod_le _ _) hu
    have hunmarked : ¬ (Utf8.encode str).take bom.length = bom := by
      rw [Utf8.encode_ascii hascii]
      intro he
      have hmem : 0xEF ∈ (str.map (·.toUInt8)).take bom.length := by rw [he]; decide
      exact absurd (hall 0xEF (mem_of_mem_take hmem)) (by decide)
    rw [unMungeStr_escaped api h hutf hbytes, if_neg hunmarked, Utf8.encode_ascii hascii,
      hansi _ hall, hplain.chars, wide_narrow hascii]

/-! ## The flag for values -/

theorem hexToken_inj {x : UInt8} (h : hexToken b = hexToken x) : b = x := by
  have hread := congrArg (fun bytes => unescapeRegistryKey (bytes ++ [])) h
  rw [unescape_hexToken, unescape_hexToken] at hread
  exact (List.cons.inj hread).1

theorem wide_inj {a b : List UInt8} (h : wide a = wide b) : a = b :=
  map_injective_iff.mpr (fun _ _ h => UInt8.toUInt16_inj.mp h) h

theorem quiet_plain {x : UInt8} {ch : WChar} (h : ch ≠ 37) : Quiet (wide (hexToken x)) [ch] :=
  quiet_cons.mpr ⟨fun _ hprefix => h (cons_prefix_cons.mp hprefix).1.symm, quiet_nil⟩

theorem quiet_hexToken {x : UInt8} (h : b ≠ x) :
    Quiet (wide (hexToken x)) (wide (hexToken b)) := by
  have hdigits : ∀ b : UInt8, (hexDigit (b.toNat / 16)).toUInt8.toUInt16 ≠ 37 ∧
      (hexDigit (b.toNat % 16)).toUInt8.toUInt16 ≠ 37 := forall_byte (by decide +kernel)
  refine quiet_cons.mpr ⟨fun str hprefix => h ?_,
    Quiet.append (quiet_plain (hdigits b).1) (quiet_plain (hdigits b).2)⟩
  have heq := (prefix_of_prefix_length_le hprefix (prefix_append (wide (hexToken b)) str)
    (Nat.le_refl 3)).eq_of_length rfl
  exact hexToken_inj (wide_inj heq.symm)

/-- Putting a byte back that was escaped. -/
theorem pieces_unescape (h : Escapes escapes) {x : UInt8} (hx : ∀ candot, escapes candot x = true)
    (candot : Bool) (bytes : List UInt8) :
    Pieces (wide (hexToken x)) (wide [x]) (wide (escapeWith escapes candot bytes))
      (wide (escapeWith (fun candot b => escapes candot b && b != x) candot bytes)) := by
  induction bytes generalizing candot with
  | nil => exact .nil
  | cons b bytes ih =>
    rw [escapeWith, escapeWith, wide_append, wide_append]
    by_cases hb : b = x
    · rw [hb, token, token, hx candot, if_pos rfl, bne_self_eq_false, Bool.and_false,
        if_neg Bool.false_ne_true]
      exact .change (ih true)
    · have hsame : token (fun candot b => escapes candot b && b != x) candot b =
          token escapes candot b := by
        rw [token, token, bne_iff_ne.mpr hb, Bool.and_true]
      rw [hsame]
      refine .keep ?_ (ih true)
      rw [token]
      split
      · exact quiet_hexToken hb
      next hplain =>
        refine quiet_plain fun he => hplain ?_
        rw [UInt8.toUInt16_inj.mp (he.trans rfl : b.toUInt16 = UInt8.toUInt16 37)]
        exact h.percent candot

theorem zero_not_mem_source (hzero : 0 ∉ str) : 0 ∉ mungedSource str := by
  have hbytes : 0 ∉ Utf8.encode str := mt Utf8.zero_mem_encode.mp hzero
  unfold mungedSource
  split <;> simp [hbytes, bom]

theorem mungeStr_eq (hzero : 0 ∉ str) :
    mungeStr str false = wide (escapeWith isEscaped false (mungedSource str)) := by
  have hmunge : mungeStr str false = wide (escapeRegistryKey false (cstr (mungedSource str))) := by
    simp [mungeStr, mungedSource, wide]
  rw [hmunge, cstr_eq (zero_not_mem_source hzero), escapeRegistryKey_eq]

/-- What is escaped in the name of a key, and in that of a value. -/
def nameEscapes (value : Bool) : Bool → UInt8 → Bool :=
  if value then fun candot b => isEscaped candot b && b != 42 else isEscaped

theorem escapes_nameEscapes (value : Bool) : Escapes (nameEscapes value) := by
  cases value with
  | false => exact escapes_isEscaped
  | true =>
    refine ⟨by decide, fun candot b h => ?_⟩
    rw [nameEscapes, if_pos rfl, Bool.and_eq_false_iff] at h
    rcases h with h | h
    · exact escapes_isEscaped.ascii candot b h
    · rw [bne_eq_false_iff_eq.mp h]
      decide

theorem munges_iff {str result : UnicodeString} (hzero : 0 ∉ str) (value : Bool) :
    Munges str value result ↔
      result = wide (escapeWith (nameEscapes value) false (mungedSource str)) := by
  rw [Munges, mungeStr_eq hzero]
  cases value with
  | false => rfl
  | true =>
    have hpieces := pieces_unescape (x := 42) escapes_isEscaped (by decide) false (mungedSource str)
    have hreturns := hpieces.returns (by decide) (quiet_plain (by decide)) quiet_nil
      ⟨by decide, by decide, zero_not_mem_wide escapes_isEscaped (zero_not_mem_source hzero)⟩
    rw [if_pos rfl]
    exact ⟨fun h => h.unique hreturns, fun h => h ▸ hreturns⟩

/-! ## Names come back -/

/-- The name is munged, and the munged one is read as the name. -/
def ComesBack (api : NameApi) (value : Bool) (str : UnicodeString) : Prop :=
  ∃ result, Munges str value result ∧ unMungeStr api result = str

theorem comesBack_iff (api : NameApi)
    (hansi : ∀ bytes, (∀ b ∈ bytes, b < 128) → api.ansiToString bytes = wide bytes) (value : Bool)
    (hzero : 0 ∉ str) : ComesBack api value str ↔ Utf8.WellFormed str := by
  simp only [ComesBack, munges_iff hzero, exists_eq_left,
    unMungeStr_source api (escapes_nameEscapes value) hansi hzero]
  exact ⟨fun h => ⟨_, h.symm⟩, fun h => h.chars⟩

/-- Names of keys come back, and different names stay different, just when every
surrogate in them is half of a pair. -/
theorem mungeStr_right_iff (api : NameApi)
    (hansi : ∀ bytes, (∀ b ∈ bytes, b < 128) → api.ansiToString bytes = wide bytes)
    (value : Bool) (s s' : UnicodeString) (hs : 0 ∉ s) (hs' : 0 ∉ s') :
    (ComesBack api value s ∧ ComesBack api value s' ∧
      ∀ result, Munges s value result → Munges s' value result → s = s') ↔
      Utf8.WellFormed s ∧ Utf8.WellFormed s' := by
  rw [comesBack_iff api hansi value hs, comesBack_iff api hansi value hs', ← and_assoc,
    and_iff_left_iff_imp]
  rintro ⟨hwell, hwell'⟩ result hmunges hmunges'
  obtain ⟨r, hr, hread⟩ := (comesBack_iff api hansi value hs).mpr hwell
  obtain ⟨r', hr', hread'⟩ := (comesBack_iff api hansi value hs').mpr hwell'
  rw [munges_iff hs] at hmunges hr
  rw [munges_iff hs'] at hmunges' hr'
  rw [← hread, ← hread', hr, hr', ← hmunges, ← hmunges']

/-- UTF-8, and a code page of which only ASCII is known. -/
def asciiNames : NameApi := ⟨utf8Text, utf8Reader, wide⟩

theorem mungeStr_right_star : ComesBack asciiNames true (wstr "a*%") ∧
    ComesBack asciiNames true [0xE9] ∧
    ∀ result, Munges (wstr "a*%") true result → Munges [0xE9] true result → wstr "a*%" = [0xE9] :=
  (mungeStr_right_iff asciiNames (fun _ _ => rfl) true (wstr "a*%") [0xE9] (by decide)
    (by decide)).mpr (by decide)

/-- A lone surrogate has the key of U+FFFD. -/
theorem mungeStr_lone_surrogate : mungeStr [0xD800] false = mungeStr [0xFFFD] false ∧
    ¬ ComesBack asciiNames false [0xD800] := by
  refine ⟨by decide, ?_⟩
  rw [comesBack_iff asciiNames (fun _ _ => rfl) false (by decide)]
  decide

end NetBox.Storage
