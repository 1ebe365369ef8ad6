import NetBox.Storage.Munged

/-! # Names of values in an INI file

The name of a value is escaped when it has a `=` or something that is not ASCII. The
reader knows an escaped name by the mark of Unicode at its beginning, which a name with
only a `=` does not have, and of any other name it only turns `%3D` back. So a name with a
`=` and something else to escape does not come back, and neither does one that looks as
if it was escaped.
-/
namespace NetBox.Storage

open Base.Text Lib Session List

def equalSign : UnicodeString := wstr "="
def equalToken : UnicodeString := wstr "%3D"

/-- `EscapedBom` -/
def escapedBom : UnicodeString := wide (escapeRegistryKey false bom)

def needEscaping (str : UnicodeString) : Bool := str.any fun ch => 0x80 ≤ ch || ch == 61

/-- `MungeIniName` without `ForceAnsi` comes back with this key. -/
def MungesIni (str key : UnicodeString) : Prop :=
  ReplaceReturns equalSign equalToken (if needEscaping str then mungeStr str false else str) key

/-- `UnMungeIniName` comes back with this name. -/
def UnMungesIni (api : NameApi) (key str : UnicodeString) : Prop :=
  if posNul escapedBom key = 1 then str = unMungeStr api key
  else if 0 < posNul equalToken key then ReplaceReturns equalToken equalSign key str
  else str = key

def IniComesBack (api : NameApi) (str : UnicodeString) : Prop :=
  ∃ key, MungesIni str key ∧ UnMungesIni api key str

/-- The names that come back: well formed ones that are not ASCII, ones with a `=` and
nothing else to escape, and ones that do not look as if they were escaped. -/
def IniSafe (str : UnicodeString) : Prop :=
  if str.any (0x80 ≤ ·) then Utf8.WellFormed str
  else if 61 ∈ str then (∀ ch ∈ str, isEscaped true ch.toUInt8 = false) ∧ str.head? ≠ some 46
  else ¬ escapedBom <+: str ∧ ¬ equalToken <:+: str

variable {api : NameApi} {str key : UnicodeString} {bytes : List UInt8}

/-! ## Both directions have one result -/

theorem MungesIni.unique {key' : UnicodeString} (h : MungesIni str key) (h' : MungesIni str key') :
    key = key' := ReplaceReturns.unique h h'

theorem unMungesIni_marked (h : posNul escapedBom key = 1) :
    UnMungesIni api key str ↔ str = unMungeStr api key := by
  rw [UnMungesIni, if_pos h]

theorem unMungesIni_unmarked (h : posNul escapedBom key ≠ 1) :
    UnMungesIni api key str ↔ ReplaceReturns equalToken equalSign key str := by
  rw [UnMungesIni, if_neg h]
  split
  · rfl
  next hpos => rw [replaceReturns_iff_of_none (Nat.eq_zero_of_not_pos hpos)]

theorem UnMungesIni.unique {str' : UnicodeString} (h : UnMungesIni api key str)
    (h' : UnMungesIni api key str') : str = str' := by
  by_cases hpos : posNul escapedBom key = 1
  · rw [(unMungesIni_marked hpos).mp h, (unMungesIni_marked hpos).mp h']
  · exact ((unMungesIni_unmarked hpos).mp h).unique ((unMungesIni_unmarked hpos).mp h')

theorem posNul_escapedBom (hkey : 0 ∉ key) : posNul escapedBom key = 1 ↔ escapedBom <+: key := by
  rw [posNul, uptoNul_eq (by decide), uptoNul_eq hkey, ← startsText_iff (by decide), startsText,
    beq_iff_eq]

/-! ## Keys of escaped names -/

/-- What is escaped in a key. -/
def iniEscapes (candot : Bool) (b : UInt8) : Bool := isEscaped candot b || b == 61

theorem escapes_iniEscapes : Escapes iniEscapes := by
  refine ⟨by decide, fun candot b h => ?_⟩
  rw [iniEscapes, Bool.or_eq_false_iff] at h
  exact escapes_isEscaped.ascii candot b h.1

theorem quiet_equalSign {a : UnicodeString} (h : 61 ∉ a) : Quiet equalSign a := by
  induction a with
  | nil => exact quiet_nil
  | cons ch a ih =>
    rw [mem_cons, not_or] at h
    exact quiet_cons.mpr ⟨fun _ hprefix => h.1 (cons_prefix_cons.mp hprefix).1, ih h.2⟩

theorem pieces_escape (candot : Bool) (bytes : List UInt8) :
    Pieces equalSign equalToken (wide (escapeWith isEscaped candot bytes))
      (wide (escapeWith iniEscapes candot bytes)) := by
  induction bytes generalizing candot with
  | nil => exact .nil
  | cons b bytes ih =>
    rw [escapeWith, escapeWith, wide_append, wide_append]
    by_cases hb : b = 61
    · have hplain : token isEscaped candot b = [61] := by rw [hb]; cases candot <;> rfl
      have hescaped : token iniEscapes candot b = hexToken 61 := by rw [hb]; cases candot <;> rfl
      rw [hplain, hescaped]
      exact .change (ih true)
    · have hsame : token iniEscapes candot b = token isEscaped candot b := by
        rw [token, token, iniEscapes, beq_false_of_ne hb, Bool.or_false]
      rw [hsame]
      refine .keep (quiet_equalSign fun hmem => ?_) (ih true)
      obtain ⟨c, hc, he⟩ := mem_map.mp hmem
      obtain rfl : c = 61 := UInt8.toUInt16_inj.mp he
      have hall : ∀ b : UInt8, 61 ∉ hexToken b := forall_byte (by decide +kernel)
      rw [token] at hc
      split at hc
      · exact hall b hc
      · exact hb (mem_singleton.mp hc).symm

/-- The key of a name that is escaped. -/
theorem mungesIni_escaped (hzero : 0 ∉ str) (h : needEscaping str = true) :
    MungesIni str (wide (escapeWith iniEscapes false (mungedSource str))) := by
  rw [MungesIni, if_pos h, mungeStr_eq hzero]
  refine (pieces_escape false (mungedSource str)).returns (a := []) (by decide)
    (quiet_equalSign (by decide)) quiet_nil ⟨by decide, by decide, ?_⟩
  exact zero_not_mem_wide escapes_isEscaped (zero_not_mem_source hzero)

theorem mungesIni_plain (h : needEscaping str = false) : MungesIni str str := by
  rw [MungesIni, h, if_neg Bool.false_ne_true]
  refine (replaceReturns_iff_of_none ?_).mpr rfl
  have habsent : 61 ∉ uptoNul str → posNul equalSign str = 0 := pos_absent
  refine habsent fun hmem => ?_
  have hmem : 61 ∈ str := (takeWhile_sublist _).subset hmem
  rw [needEscaping, any_eq_false] at h
  exact h 61 hmem rfl

theorem iniComesBack_iff (h : MungesIni str key) :
    IniComesBack api str ↔ UnMungesIni api key str :=
  ⟨fun ⟨_, hkey, hstr⟩ => hkey.unique h ▸ hstr, fun hstr => ⟨key, h, hstr⟩⟩

theorem ascii_of_any (h : str.any (0x80 ≤ ·) = false) : ∀ ch ∈ str, ch.toNat < 128 := by
  intro ch hch
  have hsmall := any_eq_false.mp h ch hch
  rw [decide_eq_true_eq, UInt16.le_iff_toNat_le] at hsmall
  exact Nat.lt_of_not_le hsmall

/-! ## Names that are not ASCII -/

theorem mungedSource_wide (h : str.any (0x80 ≤ ·) = true) :
    mungedSource str = bom ++ Utf8.encode str := by
  refine if_pos (Nat.lt_of_not_le fun hle => ?_)
  obtain ⟨ch, hch, hbig⟩ := any_eq_true.mp h
  have hsmall := (Utf8.length_encode str).2 hle ch hch
  rw [decide_eq_true_eq, UInt16.le_iff_toNat_le] at hbig
  exact absurd hsmall (Nat.not_lt.mpr hbig)

theorem iniComesBack_wide (h : str.any (0x80 ≤ ·) = true) (hzero : 0 ∉ str) :
    IniComesBack api str ↔ Utf8.WellFormed str := by
  have hneed : needEscaping str = true := by
    obtain ⟨ch, hch, hbig⟩ := any_eq_true.mp h
    exact any_eq_true.mpr ⟨ch, hch, by rw [hbig, Bool.true_or]⟩
  have hsource := mungedSource_wide h
  have hnul : 0 ∉ mungedSource str := zero_not_mem_source hzero
  have hstarts : escapedBom <+: wide (escapeWith iniEscapes false (mungedSource str)) := by
    rw [hsource]
    exact ⟨wide (escapeWith iniEscapes true (Utf8.encode str)), rfl⟩
  rw [iniComesBack_iff (mungesIni_escaped hzero hneed), unMungesIni_marked
    ((posNul_escapedBom (zero_not_mem_wide escapes_iniEscapes hnul)).mpr hstarts),
    unMungeStr_escaped api escapes_iniEscapes (by rw [hsource]; simp [bom]) hnul, hsource,
    if_pos take_left, drop_left, Utf8.encode, api.reader.toText_encoded]
  exact ⟨fun h => ⟨_, h⟩, fun h => h.chars.symm⟩

/-! ## ASCII names with an equals sign -/

theorem mungedSource_ascii (h : ∀ ch ∈ str, ch.toNat < 128) :
    mungedSource str = str.map (·.toUInt8) ∧ wide (str.map (·.toUInt8)) = str := by
  have hlength : (Utf8.encode str).length = str.length := by
    rw [Utf8.encode_ascii h, length_map]
  rw [mungedSource, if_neg (by omega), Utf8.encode_ascii h]
  exact ⟨rfl, wide_narrow h⟩

theorem length_escapeWith (escapes : Bool → UInt8 → Bool) (candot : Bool) (bytes : List UInt8) :
    bytes.length ≤ (escapeWith escapes candot bytes).length := by
  induction bytes generalizing candot with
  | nil => exact Nat.le_refl 0
  | cons b bytes ih =>
    have htoken : 1 ≤ (token escapes candot b).length := by
      rw [token]
      split <;> simp [hexToken]
    have ih := ih true
    rw [escapeWith, length_append, length_cons]
    omega

theorem escapeWith_cons_eq {escapes : Bool → UInt8 → Bool} {candot : Bool} {b : UInt8} :
    escapeWith escapes candot (b :: bytes) = b :: bytes ↔
      escapes candot b = false ∧ escapeWith escapes true bytes = bytes := by
  have hlength := length_escapeWith escapes true bytes
  rw [escapeWith, token]
  split
  next hb =>
    refine iff_of_false (fun he => ?_) (by simp [hb])
    have := congrArg List.length he
    simp [hexToken] at this
    omega
  next hb => simp [hb]

/-- The escaping leaves a text as it is just when it has nothing to escape. -/
theorem escapeWith_eq_self : escapeWith isEscaped false bytes = bytes ↔
    (∀ b ∈ bytes, isEscaped true b = false) ∧ bytes.head? ≠ some 46 := by
  have hrest : ∀ bytes : List UInt8, escapeWith isEscaped true bytes = bytes ↔
      ∀ b ∈ bytes, isEscaped true b = false := by
    intro bytes
    induction bytes with
    | nil => simp [escapeWith]
    | cons b bytes ih => rw [escapeWith_cons_eq, ih, forall_mem_cons]
  cases bytes with
  | nil => simp [escapeWith]
  | cons b bytes =>
    have hfirst : isEscaped false b = false ↔ isEscaped true b = false ∧ b ≠ 46 := by
      simp [isEscaped]
    rw [escapeWith_cons_eq, hrest, hfirst, forall_mem_cons, head?_cons]
    simp only [ne_eq, Option.some.injEq]
    exact and_right_comm

theorem iniComesBack_equal (h : str.any (0x80 ≤ ·) = false) (hzero : 0 ∉ str) (hmem : 61 ∈ str) :
    IniComesBack api str ↔
      (∀ ch ∈ str, isEscaped true ch.toUInt8 = false) ∧ str.head? ≠ some 46 := by
  have hascii := ascii_of_any h
  have hneed : needEscaping str = true := any_eq_true.mpr ⟨61, hmem, rfl⟩
  obtain ⟨hsource, hwide⟩ := mungedSource_ascii hascii
  have hnul := zero_not_mem_source hzero
  rw [hsource] at hnul
  have hkey := mungesIni_escaped hzero hneed
  rw [hsource] at hkey
  -- the mark would have to stand for a byte of the name
  have hunmarked : ¬ escapedBom <+: wide (escapeWith iniEscapes false (str.map (·.toUInt8))) := by
    rintro ⟨rest, hrest⟩
    have hbytes := congrArg (List.map (·.toUInt8)) hrest
    rw [narrow_wide, map_append] at hbytes
    have hread := congrArg unescapeRegistryKey hbytes
    rw [unescape_escapeWith escapes_iniEscapes] at hread
    have hmark : 0xEF ∈ str.map (·.toUInt8) := hread ▸ mem_cons_self
    obtain ⟨ch, hch, he⟩ := mem_map.mp hmark
    have hsmall := hascii ch hch
    have htoNat := congrArg UInt8.toNat he
    rw [UInt16.toNat_toUInt8, Nat.mod_eq_of_lt (by omega)] at htoNat
    exact absurd htoNat (Nat.ne_of_lt (Nat.lt_trans hsmall (by decide)))
  have hputback : ReplaceReturns equalToken equalSign
      (wide (escapeWith iniEscapes false (str.map (·.toUInt8))))
      (wide (escapeWith isEscaped false (str.map (·.toUInt8)))) := by
    have hsame : (fun candot b => iniEscapes candot b && b != 61) = isEscaped := by
      funext candot b
      by_cases hb : b = 61
      · subst hb
        cases candot <;> rfl
      · rw [iniEscapes, beq_false_of_ne hb, Bool.or_false, bne_iff_ne.mpr hb, Bool.and_true]
    have hpieces := pieces_unescape (x := 61) escapes_iniEscapes (by decide) false
      (str.map (·.toUInt8))
    rw [hsame] at hpieces
    exact hpieces.returns (a := []) (by decide) (quiet_plain (by decide)) quiet_nil
      ⟨by decide, by decide, zero_not_mem_wide escapes_iniEscapes hnul⟩
  rw [iniComesBack_iff hkey, unMungesIni_unmarked
    (mt (posNul_escapedBom (zero_not_mem_wide escapes_iniEscapes hnul)).mp hunmarked)]
  have hresult : ReplaceReturns equalToken equalSign
      (wide (escapeWith iniEscapes false (str.map (·.toUInt8)))) str ↔
        escapeWith isEscaped false (str.map (·.toUInt8)) = str.map (·.toUInt8) :=
    ⟨fun h => wide_inj ((hputback.unique h).trans hwide.symm), fun h => by
      rw [h, hwide] at hputback
      exact hputback⟩
  rw [hresult, escapeWith_eq_self, forall_mem_map]
  refine and_congr_right fun _ => not_congr ?_
  cases str with
  | nil => simp
  | cons ch str =>
    have hsmall := hascii ch mem_cons_self
    simp only [map_cons, head?_cons, Option.some.injEq, ← UInt8.toNat_inj,
      ← UInt16.toNat_inj, UInt16.toNat_toUInt8]
    rw [Nat.mod_eq_of_lt (by omega)]
    rfl

/-! ## Names that are kept as they are -/

theorem length_unescape (bytes : List UInt8) :
    (unescapeRegistryKey bytes).length ≤ bytes.length := by
  fun_induction unescapeRegistryKey bytes with
  | case1 a b rest ih =>
    simp only [length_cons]
    omega
  | case2 b rest _ ih =>
    simp only [length_cons]
    omega
  | case3 => exact Nat.le_refl 0

/-- What looks as if it was escaped is read as something shorter. -/
theorem length_unMungeStr (hlength : ∀ bytes, (api.reader.toText bytes).length ≤ bytes.length)
    {rest : UnicodeString} (hascii : ∀ ch ∈ escapedBom ++ rest, ch.toNat < 128)
    (hzero : 0 ∉ escapedBom ++ rest) :
    (unMungeStr api (escapedBom ++ rest)).length < (escapedBom ++ rest).length := by
  have hbytes : 0 ∉ Utf8.encode (escapedBom ++ rest) := mt Utf8.zero_mem_encode.mp hzero
  have hdest : cstr (unescapeRegistryKey (cstr (Utf8.encode (escapedBom ++ rest)))) =
      bom ++ cstr (unescapeRegistryKey (rest.map (·.toUInt8))) := by
    rw [cstr_eq hbytes, Utf8.encode_ascii hascii, map_append]
    rfl
  have hread : unMungeStr api (escapedBom ++ rest) =
      api.reader.toText (cstr (unescapeRegistryKey (rest.map (·.toUInt8)))) := by
    rw [unMungeStr, show (escapedBom ++ rest).isEmpty = false from rfl,
      if_neg Bool.false_ne_true]
    simp only [hdest, take_left, drop_left, if_pos]
  have hcstr : (cstr (unescapeRegistryKey (rest.map (·.toUInt8)))).length ≤ _ :=
    (takeWhile_sublist _).length_le
  have hunescape := length_unescape (rest.map (·.toUInt8))
  have htext := hlength (cstr (unescapeRegistryKey (rest.map (·.toUInt8))))
  rw [length_map] at hunescape
  have hbom : escapedBom.length = 9 := rfl
  rw [hread, length_append]
  omega

theorem pos_eq_zero_iff {sub : UnicodeString} : pos sub str = 0 ↔ ¬ sub <:+: str := by
  constructor
  · rintro h ⟨a, b, rfl⟩
    exact (pos_le a sub b).1 h
  · intro h
    cases hpos : pos sub str with
    | zero => rfl
    | succ n =>
      obtain ⟨b, hb, -⟩ := pos_some hpos
      exact absurd ⟨_, b, hb.symm⟩ h

theorem iniComesBack_plain (hlength : ∀ bytes, (api.reader.toText bytes).length ≤ bytes.length)
    (h : str.any (0x80 ≤ ·) = false) (hzero : 0 ∉ str) (hmem : 61 ∉ str) :
    IniComesBack api str ↔ ¬ escapedBom <+: str ∧ ¬ equalToken <:+: str := by
  have hneed : needEscaping str = false := by
    refine any_eq_false.mpr fun ch hch => ?_
    rw [Bool.or_eq_true, beq_iff_eq, not_or]
    exact ⟨any_eq_false.mp h ch hch, fun he => hmem (he ▸ hch)⟩
  rw [iniComesBack_iff (mungesIni_plain hneed)]
  by_cases hmarked : escapedBom <+: str
  · rw [unMungesIni_marked ((posNul_escapedBom hzero).mpr hmarked)]
    refine iff_of_false (fun he => ?_) (fun h => h.1 hmarked)
    obtain ⟨rest, rfl⟩ := hmarked
    have hlt := length_unMungeStr hlength (ascii_of_any h) hzero
    rw [← he] at hlt
    exact Nat.lt_irrefl _ hlt
  · rw [unMungesIni_unmarked (mt (posNul_escapedBom hzero).mp hmarked), and_iff_right hmarked,
      ← pos_eq_zero_iff]
    have hfree : NulFree equalToken equalSign str := ⟨by decide, by decide, hzero⟩
    rw [← hfree.posNul]
    exact ⟨fun hreturns => (hreturns.invariant (P := fun _ => True) (fun _ _ _ _ => trivial)
      trivial).2, fun hpos => (replaceReturns_iff_of_none hpos).mpr rfl⟩

theorem iniComesBack_iff_safe
    (hlength : ∀ bytes, (api.reader.toText bytes).length ≤ bytes.length) (hzero : 0 ∉ str) :
    IniComesBack api str ↔ IniSafe str := by
  unfold IniSafe
  split
  next h => exact iniComesBack_wide h hzero
  next h =>
    have hascii := Bool.eq_false_iff.mpr h
    split
    next hmem => exact iniComesBack_equal hascii hzero hmem
    next hmem => exact iniComesBack_plain hlength hascii hzero hmem

/-- Names of values come back, and different names have different keys, just when they are
safe. A text that is read from UTF-8 has no more code units than there were bytes. -/
theorem mungeIniName_right_iff (api : NameApi)
    (hlength : ∀ bytes, (api.reader.toText bytes).length ≤ bytes.length)
    (s s' : UnicodeString) (hs : 0 ∉ s) (hs' : 0 ∉ s') :
    (IniComesBack api s ∧ IniComesBack api s' ∧
      ∀ key, MungesIni s key → MungesIni s' key → s = s') ↔ IniSafe s ∧ IniSafe s' := by
  rw [iniComesBack_iff_safe hlength hs, iniComesBack_iff_safe hlength hs', ← and_assoc,
    and_iff_left_iff_imp]
  rintro ⟨hsafe, hsafe'⟩ key hkey hkey'
  rw [← iniComesBack_iff_safe hlength hs, iniComesBack_iff hkey] at hsafe
  rw [← iniComesBack_iff_safe hlength hs', iniComesBack_iff hkey'] at hsafe'
  exact hsafe.unique hsafe'

theorem mungeIniName_right_equal : IniComesBack asciiNames (wstr "a=b") ∧
    IniComesBack asciiNames [0xE9] ∧
    ∀ key, MungesIni (wstr "a=b") key → MungesIni [0xE9] key → wstr "a=b" = [0xE9] := by
  refine (mungeIniName_right_iff asciiNames Utf8.length_decode (wstr "a=b") [0xE9] (by decide)
    (by decide)).mpr ⟨?_, ?_⟩
  · rw [IniSafe, if_neg (by decide), if_pos (by decide)]
    exact ⟨forall_mem_of_all (by decide), by decide⟩
  · rw [IniSafe, if_pos (by decide)]
    decide

/-- `a b=` has the key of `a%20b%3D`, and neither comes back. -/
theorem mungeIniName_shared_key : ∃ key, MungesIni (wstr "a b=") key ∧
    MungesIni (wstr "a%20b%3D") key ∧ ¬ IniComesBack asciiNames (wstr "a b=") ∧
      ¬ IniComesBack asciiNames (wstr "a%20b%3D") := by
  have hkey : MungesIni (wstr "a b=") (wstr "a%20b%3D") :=
    mungesIni_escaped (by decide) (by decide)
  refine ⟨wstr "a%20b%3D", hkey, mungesIni_plain (by decide), ?_, ?_⟩
  · rw [iniComesBack_iff_safe Utf8.length_decode (by decide)]
    rw [IniSafe, if_neg (by decide), if_pos (by decide)]
    exact fun h => absurd (h.1 32 (by decide)) (by decide)
  · rw [iniComesBack_iff_safe Utf8.length_decode (by decide)]
    rw [IniSafe, if_neg (by decide), if_neg (by decide)]
    exact fun h => h.2 ⟨wstr "a%20b", [], by decide⟩

end NetBox.Storage
