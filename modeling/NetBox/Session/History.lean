import NetBox.Session.ParseUrl
import NetBox.Lib.Utf8

/-! # The parameter of the session history

`EncodeSessionParam` writes a site's name and a remote directory as one URL, and
`DecodeSessionParam` reads them back. `DoEncodeUrl` converts one code unit at a
time, so a pair of surrogates is converted as two lone ones, and U+0000 ends a
text wherever the code hands one over as a C string.
-/

namespace NetBox.Session

open Base.Text Lib List

/-- The operating system converts to UTF-8 and back: every code unit on its own
by `WideCharToMultiByte`, and well formed bytes by `MultiByteToWideChar`. -/
structure ConvertsUtf8 (t : TextApi) : Prop where
  utf8_eq : ∀ c, t.utf8 c = Utf8.encode [c]
  utf8ToString_eq : ∀ cs : List Char,
    t.utf8ToString (cs.flatMap String.utf8EncodeChar) = cs.flatMap Utf8.units

structure TSessionHistoryEntry where
  sessionName : UnicodeString := []
  remoteDirectory : UnicodeString := []
  valid : Bool := false
deriving DecidableEq, Repr

def netboxPrefix : UnicodeString := wstr "netbox://"

def encodeSessionParam (t : TextApi) (sessionName remoteDirectory : UnicodeString) :
    UnicodeString :=
  let result := plus netboxPrefix (t.encodeUrlString sessionName)
  if remoteDirectory ≠ [] then result ++ plus [slash] (t.encodeUrlPath remoteDirectory)
  else result

def decodeSessionParam (t : TextApi) (param : UnicodeString) : TSessionHistoryEntry :=
  if t.lowerCase (param.take 9) = netboxPrefix then
    let remaining := param.drop 9
    let slashPos := pos [slash] remaining
    if 0 < slashPos then
      let name := t.decodeUrlChars (remaining.take (slashPos - 1))
      ⟨name, t.decodeUrlChars (remaining.drop slashPos), !name.isEmpty⟩
    else
      let name := t.decodeUrlChars remaining
      ⟨name, [], !name.isEmpty⟩
  else if t.lowerCase (param.take 7) = wstr "netbox:" then
    let remaining := param.drop 7
    let delimPos := pos [1] remaining
    if 0 < delimPos then
      ⟨remaining.take (delimPos - 1), remaining.drop delimPos,
        !(remaining.take (delimPos - 1)).isEmpty⟩
    else ⟨remaining, [], !remaining.isEmpty⟩
  else {}

/-- A text without surrogates and without U+0000. -/
def Plain (str : UnicodeString) : Prop := ∀ c ∈ str, c ≠ 0 ∧ Utf8.isSurrogate c = false

instance (str : UnicodeString) : Decidable (Plain str) :=
  decidable_of_iff (str.all (fun c => c != 0 && !Utf8.isSurrogate c) = true) (by simp [Plain])

/-! ## U+0000 does not come back -/

theorem keepChar_ne_zero {n : Nat} {c : WChar} (h : c ≠ 0) : keepChar n c ≠ 0 := by
  unfold keepChar decodeChar
  split
  · split
    · decide
    · exact h
  · exact h

variable {str : UnicodeString}

theorem zero_not_mem_decodeFrom (t : TextApi) (skip : Nat) (bytes : List UInt8) (h : 0 ∉ str) :
    0 ∉ t.decodeFrom skip bytes str := by
  fun_induction t.decodeFrom skip bytes str with
  | case1 skip bytes => exact zero_not_mem_uptoNul _
  | case2 skip bytes a =>
    simp only [mem_singleton, mem_append, not_or] at h ⊢
    exact ⟨zero_not_mem_uptoNul _, (keepChar_ne_zero (Ne.symm h)).symm⟩
  | case3 skip bytes a b =>
    simp only [mem_cons, not_mem_nil, or_false, mem_append, not_or] at h ⊢
    exact ⟨zero_not_mem_uptoNul _, (keepChar_ne_zero (Ne.symm h.1)).symm,
      (keepChar_ne_zero (Ne.symm h.2)).symm⟩
  | case4 skip bytes a b c str hc ih =>
    exact ih fun hm => h (by simp [hm])
  | case5 skip bytes a b c str hc ih =>
    rw [mem_cons, not_or] at h
    rw [mem_append, mem_cons, not_or, not_or]
    exact ⟨zero_not_mem_uptoNul _, (keepChar_ne_zero (Ne.symm h.1)).symm, ih h.2⟩

theorem zero_not_mem_decodeUrlChars (t : TextApi) (h : 0 ∉ str) :
    0 ∉ t.decodeUrlChars str := zero_not_mem_decodeFrom t 0 [] h

/-! ## What is decoded of an encoded text -/

/-- What a code unit that is converted on its own becomes. -/
def scrub (c : WChar) : WChar := if Utf8.isSurrogate c then 0xFFFD else c

theorem units_single (c : WChar) : Utf8.units (Utf8.single c) = [scrub c] := by
  by_cases h : Utf8.isSurrogate c = true
  · rw [Utf8.single, scrub, if_pos h, if_pos h, Utf8.units_replacement]
  · rw [Utf8.units_single (by simpa using h), scrub, if_neg h]

theorem scrub_ne_zero {c : WChar} (h : c ≠ 0) : scrub c ≠ 0 := by
  unfold scrub
  split
  · decide
  · exact h

theorem byteToHex_decode (b : UInt8) : ∃ high low, byteToHex b = [high, low] ∧
    isHex high = true ∧ isHex low = true ∧ hexToByte high low = b := by
  have hdigit : ∀ n : Fin 16, isHex (hexDigit n.val) = true ∧
      hexValue (hexDigit n.val) = some n.val := by decide
  have hb : b.toNat < 256 := UInt8.toNat_lt b
  have hhigh := hdigit ⟨b.toNat / 16, by omega⟩
  have hlow := hdigit ⟨b.toNat % 16, by omega⟩
  refine ⟨_, _, rfl, hhigh.1, hlow.1, ?_⟩
  rw [hexToByte, hhigh.2, hlow.2]
  dsimp only
  rw [Nat.div_add_mod' b.toNat 16]
  simp

/-- A run of `%XX` is collected byte by byte. -/
theorem decodeFrom_run (t : TextApi) (bytes bs : List UInt8) (str : UnicodeString) :
    t.decodeFrom 0 bytes ((bs.flatMap fun b => percent :: byteToHex b) ++ str) =
      t.decodeFrom 0 (bytes ++ bs) str := by
  induction bs generalizing bytes with
  | nil => rw [flatMap_nil, nil_append, append_nil]
  | cons b bs ih =>
    obtain ⟨high, low, hhex, hhigh, hlow, hbyte⟩ := byteToHex_decode b
    rw [flatMap_cons, hhex, append_assoc]
    show t.decodeFrom 0 bytes (percent :: high :: low ::
      ((bs.flatMap fun b => percent :: byteToHex b) ++ str)) = _
    rw [TextApi.decodeFrom, if_pos ⟨rfl, rfl, hhigh, hlow⟩, hbyte, ih, append_assoc,
      singleton_append]

variable {doNotEncode : UnicodeString}

section Decode

variable {t : TextApi} (ht : ConvertsUtf8 t)
include ht

theorem utf8_eq_single (c : WChar) : t.utf8 c = String.utf8EncodeChar (Utf8.single c) := by
  rw [ht.utf8_eq, Utf8.encode, Utf8.chars, flatMap_singleton]

/-- The text of a run is what its code units became. -/
theorem chars_utf8 (run : UnicodeString) : t.chars (run.flatMap t.utf8) = run.map scrub := by
  have hbytes : run.flatMap t.utf8 = (run.map Utf8.single).flatMap String.utf8EncodeChar := by
    rw [flatMap_map]
    exact congrArg (run.flatMap ·) (funext fun c => utf8_eq_single ht c)
  have htext : (run.map Utf8.single).flatMap Utf8.units = run.map scrub := by
    rw [flatMap_map, ← flatMap_pure_eq_map]
    exact congrArg (run.flatMap ·) (funext fun c => units_single c)
  rw [TextApi.chars]
  split
  next hempty =>
    cases run with
    | nil => rfl
    | cons c run =>
      rw [flatMap_cons, utf8_eq_single ht, append_eq_nil_iff] at hempty
      exact absurd hempty.1 String.utf8EncodeChar_ne_nil
  next => rw [hbytes, ht.utf8ToString_eq, htext]

theorem uptoNul_chars {run : UnicodeString} (h : 0 ∉ run) :
    uptoNul (t.chars (run.flatMap t.utf8)) = run.map scrub ∧
      t.ahead 0 (run.flatMap t.utf8) = 0 := by
  have hzero : 0 ∉ run.map scrub := by
    rw [mem_map]
    rintro ⟨c, hc, he⟩
    exact scrub_ne_zero (fun h0 => h (h0 ▸ hc)) he
  rw [TextApi.ahead, chars_utf8 ht, uptoNul_eq hzero]
  exact ⟨rfl, by omega⟩

/-- Without U+0000 every code unit comes back as what its conversion made of it. -/
theorem decodeFrom_encoded
    (hplain : ∀ c, isPlain doNotEncode c = true → scrub c = c ∧ c ≠ percent ∧ c ≠ 43)
    (run str : UnicodeString) (hrun : 0 ∉ run) (hstr : 0 ∉ str) :
    t.decodeFrom 0 (run.flatMap t.utf8) (t.doEncodeUrl doNotEncode str) =
      (run ++ str).map scrub := by
  induction str generalizing run with
  | nil => rw [append_nil]; exact (uptoNul_chars ht hrun).1
  | cons c str ih =>
    rw [mem_cons, not_or] at hstr
    rw [TextApi.doEncodeUrl, flatMap_cons]
    split
    next hc =>
      obtain ⟨hsame, hpercent, hplus⟩ := hplain c hc
      obtain ⟨htext, hahead⟩ := uptoNul_chars ht hrun
      have hrest := ih [] not_mem_nil hstr.2
      rw [singleton_append, decodeFrom_cons t 0 _ hpercent, htext, hahead, keepChar,
        if_pos rfl, decodeChar, if_neg hplus, map_append, map_cons, hsame]
      exact congrArg (run.map scrub ++ c :: ·) hrest
    next hc =>
      have hrest := ih (run ++ [c]) (by simpa [hrun] using hstr.1) hstr.2
      rw [flatMap_append, flatMap_singleton] at hrest
      rw [decodeFrom_run]
      exact hrest.trans (by rw [← append_cons])

theorem decodeUrlChars_encoded
    (hplain : ∀ c, isPlain doNotEncode c = true → scrub c = c ∧ c ≠ percent ∧ c ≠ 43)
    (hstr : 0 ∉ str) : t.decodeUrlChars (t.doEncodeUrl doNotEncode str) = str.map scrub :=
  decodeFrom_encoded ht hplain [] str not_mem_nil hstr

/-- A text comes back from its encoding exactly when it is plain. -/
theorem decoded_iff {doNotEncode str : UnicodeString}
    (hplain : ∀ c, isPlain doNotEncode c = true → scrub c = c ∧ c ≠ percent ∧ c ≠ 43) :
    0 ∉ str ∧ t.decodeUrlChars (t.doEncodeUrl doNotEncode str) = str ↔ Plain str := by
  constructor
  · rintro ⟨hzero, hsame⟩ c hc
    refine ⟨fun he => hzero (he ▸ hc), ?_⟩
    rw [decodeUrlChars_encoded ht hplain hzero] at hsame
    have hfixed : scrub c = c := map_inj_left.mp (hsame.trans (map_id str).symm) c hc
    rw [Bool.eq_false_iff]
    intro hs
    rw [scrub, if_pos hs] at hfixed
    rw [← hfixed] at hs
    exact absurd hs (by decide)
  · intro h
    have hzero : 0 ∉ str := fun hmem => (h 0 hmem).1 rfl
    refine ⟨hzero, ?_⟩
    rw [decodeUrlChars_encoded ht hplain hzero]
    refine (map_congr_left fun c hc => ?_).trans (map_id str)
    rw [scrub, (h c hc).2, if_neg Bool.false_ne_true]
    rfl

end Decode

theorem isPlain_spec (hfound : ∀ c, found doNotEncode c = true → c = slash ∨ c = 0) {c : WChar}
    (h : isPlain doNotEncode c = true) : scrub c = c ∧ c ≠ percent ∧ c ≠ 43 := by
  have hascii : c.toNat < 128 ∧ c.toNat ≠ 37 ∧ c.toNat ≠ 43 := by
    simp only [isPlain, Bool.or_eq_true] at h
    rcases h with ((h | h) | h) | h
    · simp only [isLetter, Bool.or_eq_true, Bool.and_eq_true, decide_eq_true_eq,
        UInt16.le_iff_toNat_le, UInt16.reduceToNat] at h
      omega
    · simp only [isDigit, Bool.and_eq_true, decide_eq_true_eq, UInt16.le_iff_toNat_le,
        UInt16.reduceToNat] at h
      omega
    · have hall : (wstr "_-.*").all fun c => decide (c.toNat < 128 ∧ c.toNat ≠ 37 ∧ c.toNat ≠ 43) :=
        by decide
      simpa using all_eq_true.mp hall c (contains_iff_mem.mp h)
    · rcases hfound c h with rfl | rfl <;> decide
  refine ⟨?_, fun he => hascii.2.1 (by rw [he]; rfl), fun he => hascii.2.2 (by rw [he]; rfl)⟩
  rw [scrub, if_neg fun hs => ?_]
  have := Utf8.isSurrogate_iff.mp hs
  omega

theorem found_slash {c : WChar} (h : found [slash] c = true) : c = slash ∨ c = 0 := by
  simpa [found] using h

theorem string_decoded_iff {t : TextApi} (ht : ConvertsUtf8 t) :
    t.decodeUrlChars (t.encodeUrlString str) = str ↔ Plain str := by
  have hplain : ∀ c, isPlain [] c = true → scrub c = c ∧ c ≠ percent ∧ c ≠ 43 :=
    fun c => isPlain_spec fun c h => by simp [found] at h
  rw [← decoded_iff ht hplain]
  refine ⟨fun h => ⟨?_, h⟩, And.right⟩
  rw [← h]
  exact zero_not_mem_decodeUrlChars t (not_mem_encodeUrlString 0 (by decide) t str)

theorem zero_mem_encodeUrlPath {t : TextApi} : 0 ∈ t.encodeUrlPath str ↔ 0 ∈ str := by
  constructor
  · intro h
    obtain ⟨c, hc, hmem⟩ := mem_flatMap.mp h
    split at hmem
    · rwa [mem_singleton.mp hmem]
    · obtain ⟨b, -, hb⟩ := mem_flatMap.mp hmem
      rcases mem_cons.mp hb with hb | hb
      · exact absurd hb (by decide)
      · exact absurd (isUrlChar_of_mem_byteToHex hb) (by decide)
  · intro h
    exact mem_flatMap.mpr ⟨0, h, by rw [if_pos (by decide)]; exact mem_singleton.mpr rfl⟩

theorem path_decoded_iff {t : TextApi} (ht : ConvertsUtf8 t) :
    t.decodeUrlChars (uptoNul (t.encodeUrlPath str)) = str ↔ Plain str := by
  have hplain : ∀ c, isPlain [slash] c = true → scrub c = c ∧ c ≠ percent ∧ c ≠ 43 :=
    fun c => isPlain_spec fun c => found_slash
  rw [← decoded_iff ht hplain]
  constructor
  · intro h
    have hzero : 0 ∉ str := by
      rw [← h]
      exact zero_not_mem_decodeUrlChars t (zero_not_mem_uptoNul _)
    rw [uptoNul_eq (mt zero_mem_encodeUrlPath.mp hzero)] at h
    exact ⟨hzero, h⟩
  · rintro ⟨hzero, h⟩
    rwa [uptoNul_eq (mt zero_mem_encodeUrlPath.mp hzero)]

/-! ## The parameter -/

/-- The parts of a parameter are taken apart where they were put together. -/
theorem decodeSessionParam_encoded (t : TextApi) (name directory : UnicodeString) :
    decodeSessionParam t (encodeSessionParam t name directory) =
      ⟨t.decodeUrlChars (t.encodeUrlString name),
        t.decodeUrlChars (uptoNul (t.encodeUrlPath directory)),
        !(t.decodeUrlChars (t.encodeUrlString name)).isEmpty⟩ := by
  have hname : plus netboxPrefix (t.encodeUrlString name) =
      netboxPrefix ++ t.encodeUrlString name := by
    refine uptoNul_eq fun hmem => ?_
    rcases mem_append.mp hmem with hmem | hmem
    · exact absurd hmem (by decide)
    · exact not_mem_encodeUrlString 0 (by decide) t name hmem
  have hlower : t.lowerCase netboxPrefix = netboxPrefix := t.lowerCase_lower (by decide)
  have hlength : netboxPrefix.length = 9 := by decide
  have hslash := not_mem_encodeUrlString slash (by decide) t name
  rw [encodeSessionParam, hname]
  by_cases hdir : directory = []
  · subst hdir
    rw [if_neg fun h => h rfl, decodeSessionParam, take_left' hlength,
      drop_left' hlength, if_pos hlower]
    dsimp only
    rw [pos_absent hslash]
    rfl
  · have hcut : plus [slash] (t.encodeUrlPath directory) =
        slash :: uptoNul (t.encodeUrlPath directory) := by
      rw [plus, uptoNul, singleton_append, takeWhile_cons_of_pos (by decide)]
      rfl
    rw [if_pos hdir, hcut, append_assoc, decodeSessionParam, take_left' hlength,
      drop_left' hlength, if_pos hlower]
    dsimp only
    rw [pos_split hslash, if_pos (Nat.succ_pos _), Nat.add_sub_cancel, take_left' rfl,
      append_cons, drop_left' (by simp)]

/-- A name and a directory come back from the parameter exactly when neither
has a surrogate or a U+0000 in it. -/
theorem session_param_round_trip_iff (t : TextApi) (ht : ConvertsUtf8 t)
    (name directory : UnicodeString) (hname : name ≠ []) :
    decodeSessionParam t (encodeSessionParam t name directory) = ⟨name, directory, true⟩ ↔
      Plain name ∧ Plain directory := by
  rw [decodeSessionParam_encoded, TSessionHistoryEntry.mk.injEq, ← string_decoded_iff ht,
    ← path_decoded_iff ht]
  refine ⟨fun h => ⟨h.1, h.2.1⟩, fun h => ⟨h.1, h.2, ?_⟩⟩
  rw [h.1, Bool.not_eq_true', List.isEmpty_eq_false_iff]
  exact hname

/-- A system that knows the lower case of ASCII letters and converts to UTF-8. -/
def utf8Text : TextApi :=
  { asciiText with utf8 := fun c => Utf8.encode [c], utf8ToString := Utf8.decode }

theorem utf8Text_converts : ConvertsUtf8 utf8Text where
  utf8_eq _ := rfl
  utf8ToString_eq cs := by
    show Utf8.decode _ = _
    rw [Utf8.decode, Utf8.decodeChars_encode]

theorem session_param_round_trip_path :
    decodeSessionParam utf8Text (encodeSessionParam utf8Text (wstr "a/b% +c") (wstr "/home")) =
      ⟨wstr "a/b% +c", wstr "/home", true⟩ :=
  (session_param_round_trip_iff utf8Text utf8Text_converts (wstr "a/b% +c") (wstr "/home")
    (by decide)).mpr ⟨by decide, by decide⟩

/-- The name U+1F600 is lost: both halves of the pair come back as U+FFFD. -/
theorem session_name_lost :
    Utf8.WellFormed [0xD83D, 0xDE00] ∧
      decodeSessionParam utf8Text (encodeSessionParam utf8Text [0xD83D, 0xDE00] []) =
        ⟨[0xFFFD, 0xFFFD], [], true⟩ := by
  refine ⟨⟨[Char.ofNat 0x1F600], by decide⟩, ?_⟩
  have hname : utf8Text.decodeUrlChars (utf8Text.encodeUrlString [0xD83D, 0xDE00]) =
      [0xFFFD, 0xFFFD] :=
    decodeUrlChars_encoded utf8Text_converts
      (fun c => isPlain_spec fun c h => by simp [found] at h) (by decide)
  rw [decodeSessionParam_encoded, hname]
  rfl

end NetBox.Session
